import Mathlib.Logic.Equiv.Defs
import LlvmPasses.Ir.Rename

/-!
# The same function under other handles

Which handles new blocks and instructions get means nothing. Two functions that
were made from one are the same but for these handles when a permutation of
handles takes one to the other and leaves those of the common origin alone.
-/

namespace LlvmPasses.Ir

variable {β ι : Nat → Nat}

def Value.relabel (β ι : Nat → Nat) : Value → Value
  | .inst id => .inst (ι id)
  | .block k => .block (β k)
  | v => v

def Instr.relabel {ω : Type} (β ι : Nat → Nat) (i : Instr ω) : Instr ω :=
  { i with
    id := ι i.id
    operands := i.operands.map (Value.relabel β ι)
    incoming := i.incoming.map β }

def Block.relabel (β ι : Nat → Nat) (b : Block) : Block :=
  ⟨b.instrs.map (Instr.relabel β ι), b.term.relabel β ι⟩

/-- Every incoming block in the block. -/
def Block.incoming (b : Block) : List Nat := b.instrs.flatMap Instr.incoming ++ b.term.incoming

namespace Function

/-- `H` is `G` under other handles, but for those that `F` has given out. -/
structure Renaming (F G H : Function) (β ι : Equiv.Perm Nat) : Prop where
  block_fixed : ∀ k < F.nextBlock, β k = k
  inst_fixed : ∀ id < F.nextInst, ι id = id
  params : H.params = G.params
  retTy : H.retTy = G.retTy
  optnone : H.optnone = G.optnone
  order : H.order = G.order.map β
  block : ∀ k ∈ G.order, H.block (β k) = (G.block k).relabel β ι

end Function

/-- An instruction that has kept its handle and its incoming blocks. -/
theorem mapOperands_relabel {ω : Type} {i : Instr ω} {f g : Value → Value}
    (hid : ι i.id = i.id) (hincoming : ∀ p ∈ i.incoming, β p = p)
    (h : ∀ v ∈ i.operands, g v = (f v).relabel β ι) :
    i.mapOperands g = (i.mapOperands f).relabel β ι := by
  have hoperands : i.operands.map g = (i.operands.map f).map (Value.relabel β ι) := by
    rw [List.map_map]
    exact List.map_congr_left h
  have hblocks : i.incoming = i.incoming.map β := by
    rw [List.map_congr_left hincoming, List.map_id']
  unfold Instr.mapOperands Instr.relabel
  rw [hid, hoperands, ← hblocks]

end LlvmPasses.Ir
