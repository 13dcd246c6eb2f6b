import BifrostModule.Dma.Request
import BifrostModule.Lifecycle.Services
import BifrostModule.Regb.Modify

/-! # Starting a DMA channel through the select register

`bifrost_dma_chan_start` makes six register writes under the spinlock of the DMA BAR. The
controller keeps one set of registers per channel, and the channel register selects the
set that the other writes act on.
-/
namespace BifrostModule.Dma
open Foundation Regb Lifecycle

def valhallaAddrDmaRegBase : BitVec 32 := 0x100#32

def valhallaAddrDmaChan : BitVec 32 := valhallaAddrDmaRegBase + 0x2C#32

def valhallaAddrDmaSrcAddr : BitVec 32 := valhallaAddrDmaRegBase + 0x18#32

def valhallaAddrDmaDestAddr : BitVec 32 := valhallaAddrDmaRegBase + 0x1C#32

def valhallaAddrDmaLenBytes : BitVec 32 := valhallaAddrDmaRegBase + 0x20#32

def valhallaAddrDmaDirUpStrm : BitVec 32 := valhallaAddrDmaRegBase + 0x24#32

def valhallaAddrDmaStart : BitVec 32 := valhallaAddrDmaRegBase + 0x28#32

/-- `VALHALLA_ADDR_DMA_DIR_UP_STRM_UP` and `VALHALLA_ADDR_DMA_DIR_UP_STRM_DOWN`. -/
def Direction.dirUpStrm : Direction → BitVec 32
  | up => 1#32
  | down => 0#32

structure ChanStart where
  ch : BitVec 32
  src : BitVec 32
  dst : BitVec 32
  len : BitVec 32
  dir : BitVec 32
  deriving DecidableEq

def kickOffXfer (ch : Chan) (req : DmaReq) : ChanStart :=
  ⟨BitVec.ofNat 32 ch, req.src, req.dst, req.len, req.dir.dirUpStrm⟩

namespace ChanStart
variable (x : ChanStart)

def settings : List (BitVec 32 × BitVec 32) :=
  [(valhallaAddrDmaChan, x.ch), (valhallaAddrDmaSrcAddr, x.src), (valhallaAddrDmaDestAddr, x.dst),
    (valhallaAddrDmaDirUpStrm, x.dir), (valhallaAddrDmaLenBytes, x.len)]

def writes : List (BitVec 32 × BitVec 32) := x.settings ++ [(valhallaAddrDmaStart, 1)]

variable {x}

theorem mem_settings {w : BitVec 32 × BitVec 32} {rest : List (BitVec 32 × BitVec 32)}
    (h : w :: rest <:+ x.writes) (hne : rest ≠ []) : w ∈ x.settings := by
  rcases List.suffix_concat_iff.mp h with hnil | ⟨l, hl, hsuffix⟩
  · cases hnil
  · cases l with
    | nil =>
      cases hl
      exact absurd rfl hne
    | cons v l =>
      cases hl
      exact hsuffix.subset List.mem_cons_self

end ChanStart

/-- The registers that each channel has of its own. -/
structure ChanRegisters where
  srcAddr : BitVec 32
  destAddr : BitVec 32
  lenBytes : BitVec 32
  dirUpStrm : BitVec 32

/-- The DMA controller, with the transfers it has launched. -/
structure DmaUnit where
  chan : BitVec 32
  sets : BitVec 32 → ChanRegisters
  launched : List ChanStart

namespace DmaUnit

def setRegisters (u : DmaUnit) (r : ChanRegisters) : DmaUnit :=
  { u with sets := Function.update u.sets u.chan r }

def write (u : DmaUnit) (addr : ℕ) (value : BitVec 32) : DmaUnit :=
  let r := u.sets u.chan
  if addr = valhallaAddrDmaChan.toNat then { u with chan := value }
  else if addr = valhallaAddrDmaSrcAddr.toNat then u.setRegisters { r with srcAddr := value }
  else if addr = valhallaAddrDmaDestAddr.toNat then u.setRegisters { r with destAddr := value }
  else if addr = valhallaAddrDmaLenBytes.toNat then u.setRegisters { r with lenBytes := value }
  else if addr = valhallaAddrDmaDirUpStrm.toNat then u.setRegisters { r with dirUpStrm := value }
  else if addr = valhallaAddrDmaStart.toNat ∧ value = 1 then
    { u with launched :=
        u.launched ++ [⟨u.chan, r.srcAddr, r.destAddr, r.lenBytes, r.dirUpStrm⟩] }
  else u

/-- What a bus operation does to the controller behind a BAR. -/
def react (bar : Bar) (u : DmaUnit) : BusOp → DmaUnit
  | .iowrite32 b addr value => if b = bar then u.write addr value else u
  | _ => u

def after (u : DmaUnit) (bar : Bar) (log : List BusOp) : DmaUnit := log.foldl (react bar) u

def writeAll (u : DmaUnit) (ws : List (BitVec 32 × BitVec 32)) : DmaUnit :=
  ws.foldl (fun u w => u.write w.1.toNat w.2) u

/-- The bytes of the registers of a call, which lie side by side from `VALHALLA_ADDR_DMA_SRC_ADDR`
to `VALHALLA_ADDR_DMA_CHAN`. -/
def IsRegister (n : ℕ) : Prop :=
  valhallaAddrDmaSrcAddr.toNat ≤ n ∧ n < valhallaAddrDmaChan.toNat + 4

instance (n : ℕ) : Decidable (IsRegister n) := inferInstanceAs (Decidable (_ ∧ _))

variable {u : DmaUnit} {bar : Bar}

theorem after_snoc (u : DmaUnit) (bar : Bar) (log : List BusOp) (op : BusOp) :
    u.after bar (log ++ [op]) = react bar (u.after bar log) op := List.foldl_concat _ _ _ _

theorem write_of_ne {addr : ℕ} (h : ¬ IsRegister addr) (value : BitVec 32) :
    u.write addr value = u := by
  have hne : ∀ r : BitVec 32, IsRegister r.toNat → addr ≠ r.toNat := by
    rintro r hr rfl
    exact h hr
  unfold write
  rw [if_neg (hne _ (by decide)), if_neg (hne _ (by decide)), if_neg (hne _ (by decide)),
    if_neg (hne _ (by decide)), if_neg (hne _ (by decide)),
    if_neg fun hstart => hne _ (by decide) hstart.1]

/-- The writes of one call, with nothing in between, launch its parameters. -/
theorem launched_writes (u : DmaUnit) (x : ChanStart) :
    (u.writeAll x.writes).launched = u.launched ++ [x] := by
  simp [writeAll, ChanStart.writes, ChanStart.settings, write, setRegisters, valhallaAddrDmaRegBase,
    valhallaAddrDmaChan, valhallaAddrDmaSrcAddr, valhallaAddrDmaDestAddr, valhallaAddrDmaLenBytes,
    valhallaAddrDmaDirUpStrm, valhallaAddrDmaStart]

theorem launched_setting (u : DmaUnit) {x : ChanStart} {w : BitVec 32 × BitVec 32}
    (hw : w ∈ x.settings) : (u.write w.1.toNat w.2).launched = u.launched := by
  have hset := List.mem_map_of_mem (f := Prod.fst) hw
  simp only [ChanStart.settings, List.map_cons, List.map_nil, List.mem_cons, List.not_mem_nil,
    or_false] at hset
  have hstart : w.1.toNat ≠ valhallaAddrDmaStart.toNat := by
    rcases hset with h | h | h | h | h <;> rw [h] <;> decide
  unfold write
  dsimp only
  rw [if_neg fun h : w.1.toNat = valhallaAddrDmaStart.toNat ∧ w.2 = 1 => hstart h.1]
  split_ifs <;> rfl

end DmaUnit
end BifrostModule.Dma
