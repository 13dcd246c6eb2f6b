import BifrostModule.Foundation.Linked

/-! # The heap of a memory block

`HeapMem_alloc` and `HeapMem_free` keep the free memory of a block as a list of headers
in their address order; each header lies at the start of the memory that it describes.
Words of `w` bits wrap.
-/
namespace BifrostModule.Cmem

def pageSize : ℕ := 4096

def heapAlign : ℕ := pageSize

def addWord (w a b : ℕ) : ℕ := (a + b) % 2 ^ w

def subWord (w a b : ℕ) : ℕ := (a + (2 ^ w - b)) % 2 ^ w

structure HeapMemHeader where
  next : ℕ
  size : ℕ
  deriving DecidableEq

/-- `heap_head` of a block and the headers in memory by their address. -/
structure HeapMem where
  head : HeapMemHeader
  mem : ℕ → HeapMemHeader

/-- `adjSize`: the requested size as a multiple of `HEAP_ALIGN`. -/
def adjSize (w reqSize : ℕ) : ℕ :=
  let offset := reqSize &&& (heapAlign - 1)
  if offset ≠ 0 then addWord w reqSize (heapAlign - offset) else reqSize

def adjAlign (reqAlign : ℕ) : ℕ :=
  if reqAlign &&& (heapAlign - 1) ≠ 0 then heapAlign else reqAlign

/-- `offset`: from a header to the first address with the alignment. -/
def alignOffset (w addr align : ℕ) : ℕ :=
  let offset := addr &&& subWord w align 1
  if offset ≠ 0 then subWord w align offset else offset

namespace HeapMem

/-- The header behind a pointer; `none` is `&heap_head[bi]`. -/
def header (h : HeapMem) : Option ℕ → HeapMemHeader
  | none => h.head
  | some addr => h.mem addr

def next (h : HeapMem) (p : Option ℕ) : ℕ := (h.header p).next

def setNext (h : HeapMem) (p : Option ℕ) (next : ℕ) : HeapMem :=
  match p with
  | none => { h with head := { h.head with next := next } }
  | some addr => { h with mem := Function.update h.mem addr { h.mem addr with next := next } }

def setSize (h : HeapMem) (addr size : ℕ) : HeapMem :=
  { h with mem := Function.update h.mem addr { h.mem addr with size := size } }

/-- The branch of `HeapMem_alloc` for a header that is big enough. -/
def allocFrom (h : HeapMem) (w : ℕ) (prevHeader : Option ℕ) (curHeader adjSize offset : ℕ) :
    HeapMem :=
  let remainSize := subWord w (subWord w (h.mem curHeader).size adjSize) offset
  let newHeader := addWord w (addWord w curHeader offset) adjSize
  if offset ≠ 0 then
    let h := h.setSize curHeader offset
    if remainSize ≠ 0 then
      let h := h.setNext (some newHeader) (h.next (some curHeader))
      let h := h.setSize newHeader remainSize
      h.setNext (some curHeader) newHeader
    else h
  else if remainSize ≠ 0 then
    let h := h.setNext (some newHeader) (h.next (some curHeader))
    let h := h.setSize newHeader remainSize
    h.setNext prevHeader newHeader
  else h.setNext prevHeader (h.next (some curHeader))

/-- The loop of `HeapMem_alloc` over the free list; `none` if the fuel does not suffice. -/
def allocLoop (h : HeapMem) (w adjSize adjAlign : ℕ) (dryrun : Bool) :
    ℕ → Option ℕ → ℕ → Option (ℕ × HeapMem)
  | 0, _, _ => none
  | fuel + 1, prevHeader, curHeader =>
    if curHeader = 0 then some (0, h)
    else
      let offset := alignOffset w curHeader adjAlign
      if addWord w adjSize offset ≤ (h.mem curHeader).size then
        let allocAddr := addWord w curHeader offset
        if dryrun then some (allocAddr, h)
        else some (allocAddr, h.allocFrom w prevHeader curHeader adjSize offset)
      else allocLoop h w adjSize adjAlign dryrun fuel (some curHeader) (h.next (some curHeader))

/-- `HeapMem_alloc`; the address 0 is `NULL`. -/
def heapMemAlloc (h : HeapMem) (w fuel reqSize reqAlign : ℕ) (dryrun : Bool) :
    Option (ℕ × HeapMem) :=
  h.allocLoop w (adjSize w reqSize) (adjAlign reqAlign) dryrun fuel none (h.next none)

def findPlace (h : HeapMem) (newHeader : ℕ) : ℕ → Option ℕ → ℕ → Option (Option ℕ × ℕ)
  | 0, _, _ => none
  | fuel + 1, curHeader, nextHeader =>
    if nextHeader ≠ 0 ∧ nextHeader < newHeader then
      findPlace h newHeader fuel (some nextHeader) (h.next (some nextHeader))
    else some (curHeader, nextHeader)

def joinUpper (h : HeapMem) (w newHeader size nextHeader : ℕ) : HeapMem :=
  if nextHeader ≠ 0 ∧ addWord w newHeader size = nextHeader then
    let h := h.setNext (some newHeader) (h.next (some nextHeader))
    h.setSize newHeader (addWord w (h.mem newHeader).size (h.mem nextHeader).size)
  else h

def joinLower (h : HeapMem) (w newHeader : ℕ) (curHeader : Option ℕ) : HeapMem :=
  match curHeader with
  | none => h
  | some cur =>
    if addWord w cur (h.mem cur).size = newHeader then
      let h := h.setNext (some cur) (h.next (some newHeader))
      h.setSize cur (addWord w (h.mem cur).size (h.mem newHeader).size)
    else h

def heapMemFree (h : HeapMem) (w fuel addr size : ℕ) : Option HeapMem :=
  let size := adjSize w size
  (h.findPlace addr fuel none (h.next none)).map fun p =>
    let h := h.setNext (some addr) p.2
    let h := h.setSize addr size
    let h := h.setNext p.1 addr
    (h.joinUpper w addr size p.2).joinLower w addr p.1

@[simp] theorem next_setSize (h : HeapMem) (addr size : ℕ) (p : Option ℕ) :
    (h.setSize addr size).next p = h.next p := by
  cases p with
  | none => rfl
  | some a =>
    by_cases ha : a = addr
    · simp [next, header, setSize, ha]
    · simp [next, header, setSize, Function.update_of_ne ha]

theorem next_setNext (h : HeapMem) (p q : Option ℕ) (v : ℕ) :
    (h.setNext p v).next q = if q = p then v else h.next q := by
  cases p with
  | none =>
    cases q with
    | none => simp [setNext, next, header]
    | some a => simp [setNext, next, header]
  | some b =>
    cases q with
    | none => simp [setNext, next, header]
    | some a =>
      by_cases ha : a = b
      · simp [setNext, next, header, ha]
      · simp [setNext, next, header, ha]

@[simp] theorem next_setNext_self (h : HeapMem) (p : Option ℕ) (v : ℕ) :
    (h.setNext p v).next p = v := by
  simp [next_setNext]

@[simp] theorem size_setNext (h : HeapMem) (p : Option ℕ) (v a : ℕ) :
    ((h.setNext p v).mem a).size = (h.mem a).size := by
  cases p with
  | none => rfl
  | some b =>
    by_cases ha : a = b
    · simp [setNext, ha]
    · simp [setNext, Function.update_of_ne ha]

theorem size_setSize (h : HeapMem) (addr v a : ℕ) :
    ((h.setSize addr v).mem a).size = if a = addr then v else (h.mem a).size := by
  by_cases ha : a = addr
  · simp [setSize, ha]
  · simp [setSize, ha]

theorem mem_setNext_of_ne (h : HeapMem) {p : Option ℕ} {a : ℕ} (ha : p ≠ some a) (v : ℕ) :
    (h.setNext p v).mem a = h.mem a := by
  cases p with
  | none => rfl
  | some b => exact Function.update_of_ne (fun hab => ha (congrArg some hab.symm)) _ _

theorem mem_setSize_of_ne (h : HeapMem) {addr a : ℕ} (ha : a ≠ addr) (v : ℕ) :
    (h.setSize addr v).mem a = h.mem a :=
  Function.update_of_ne ha _ _

theorem mem_joinUpper_of_ne (h : HeapMem) (w size nextHeader : ℕ) {newHeader a : ℕ}
    (ha : a ≠ newHeader) : (h.joinUpper w newHeader size nextHeader).mem a = h.mem a := by
  rw [joinUpper]
  split
  · rw [mem_setSize_of_ne _ ha, mem_setNext_of_ne _ fun heq => ha (Option.some.inj heq).symm]
  · rfl

theorem mem_joinLower_of_ne (h : HeapMem) (w newHeader : ℕ) {curHeader : Option ℕ} {a : ℕ}
    (ha : curHeader ≠ some a) : (h.joinLower w newHeader curHeader).mem a = h.mem a := by
  cases curHeader with
  | none => rfl
  | some cur =>
    have hne : a ≠ cur := fun heq => ha (congrArg some heq.symm)
    rw [joinLower]
    split
    · rw [mem_setSize_of_ne _ hne, mem_setNext_of_ne _ ha]
    · rfl

end HeapMem
end BifrostModule.Cmem
