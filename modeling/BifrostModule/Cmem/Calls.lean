import BifrostModule.Cmem.Driver

/-! # What the ioctls answer

The answer and the next state of an ioctl where the kernel services do what they are asked
for.
-/
namespace BifrostModule.Cmem
open Foundation

structure Outcomes.Fine (o : Outcomes) : Prop where
  copyIn : o.copyIn = true
  locked : o.locked = true
  kmalloc : o.kmalloc = true
  copyOut : o.copyOut = true

def served : Outcomes := ⟨true, true, true, true, fun _ => noPhys 32⟩

theorem served_fine : served.Fine := ⟨rfl, rfl, rfl, rfl⟩

theorem checkBlock_val {α : Type} (bi : BlockId) (fail : Errno → α) (body : BlockId → Option α) :
    CmemState.checkBlock (bi : ℕ) fail body = body bi := by
  match bi with
  | 0 => rfl
  | 1 => rfl

section
variable {w : ℕ} {cfg : CmemConfig w} {s t : CmemState} {o : Outcomes} {bi : BlockId}

theorem ioctl_getPool_eq (ho : o.Fine) (filp : Filp) (size : ℕ) :
    s.ioctl cfg filp (.getPool size (bi : ℕ)) o =
      (s.getPool cfg size bi o).map fun r => (r, s) := by
  unfold CmemState.ioctl
  dsimp only
  rw [if_neg (by simp [ho.copyIn]), checkBlock_val]

theorem ioctl_alloc_eq (ho : o.Fine) (filp : Filp) (flags : BitVec 32)
    {i : ℕ} (hi : i < (cfg.block bi).npools) {e : PoolBuffer} {rest : List PoolBuffer}
    (hfree : (s.pObjs (bi, i)).freelist = e :: rest) :
    ∃ t, s.ioctl cfg filp (.alloc i (bi : ℕ) flags) o =
      some (.ok (.buffer e.physp (s.pObjs (bi, i)).size), t) := by
  unfold CmemState.ioctl
  dsimp only
  rw [if_neg (by simp [ho.copyIn]), checkBlock_val, CmemState.alloc, if_neg (by omega)]
  simp [ho.locked, ho.copyOut, hfree]

theorem ioctl_allocHeap_eq (ho : o.Fine) (filp : Filp) (flags : BitVec 32) {hp : ℕ}
    (hpool : (cfg.block bi).heapPool = some hp) {size align virtp : ℕ}
    (halloc : s.heapAlloc cfg bi size align false = some (virtp, t)) :
    s.ioctl cfg filp (.allocHeap size align (bi : ℕ) flags) o = some
      (if virtp = 0 then (.error .ENOMEM, t) else
        (.ok (.physp (cfg.getPhys o.elsewhere virtp)), t.setPool (bi, hp) { t.pObjs (bi, hp) with
          busylist := (t.pObjs (bi, hp)).busylist ++
            [⟨hp, cfg.getPhys o.elsewhere virtp, flags, virtp, size, [filp]⟩] })) := by
  unfold CmemState.ioctl
  dsimp only
  rw [if_neg (by simp [ho.copyIn]), checkBlock_val, CmemState.allocHeap, hpool]
  by_cases hnull : virtp = 0
  · simp [ho.locked, halloc, hnull]
  · simp [ho.locked, halloc, hnull, ho.kmalloc, CmemState.reply, ho.copyOut]

theorem ioctl_free_eq (ho : o.Fine) {filp : Filp} {physp : ℕ} {id : PoolId} {e : PoolBuffer}
    (hfound : s.findBusyEntry cfg physp = some (id, e)) (huser : e.users = [filp])
    (hback : s.giveBack cfg id e = some t) :
    s.ioctl cfg filp (.freePhys physp) o = some
      (.ok (.freed id.2 (if cfg.isHeap id then e.size else (s.pObjs id).size)), t) := by
  unfold CmemState.ioctl
  dsimp only
  rw [if_neg (by simp [ho.copyIn]), CmemState.free, hfound]
  simp [ho.locked, huser, hback, CmemState.reply, ho.copyOut]

end
end BifrostModule.Cmem
