import GLang.Proofs.Generation

/-!
# Moving values

Most instructions of the generator move values between registers, the stack and memory: `Moves`.
They go on to the next instruction and name no label. Among them are the copies of aggregates, which
call `memcpy`.
-/

namespace GLang

open Asm

/-- Whether an instruction goes on to the next one, names no label and calls nothing. -/
@[simp] def Asm.Instr.isMove : Instr → Bool
  | call _ | pushLabel _ | jump _ | jumpZero _ | jumpEqual _ => false
  | _ => true

/-- Instructions that move values, among them whole copies of aggregates. -/
inductive Moves : List Instr → Prop where
  | nil : Moves []
  | cons {i is} (hi : i.isMove) (h : Moves is) : Moves (i :: is)
  | pushCopy {is} (size : Nat) (h : Moves is) : Moves (pushCopy size ++ is)
  | popCopy {is} (size extra : Nat) (h : Moves is) : Moves (popCopy size extra ++ is)

namespace Moves

theorem of_isMove {is : List Instr} (h : ∀ i ∈ is, i.isMove) : Moves is := by
  induction is with
  | nil => exact .nil
  | cons i is ih =>
    obtain ⟨hi, his⟩ := List.forall_mem_cons.1 h
    exact .cons hi (ih his)

theorem append {is js : List Instr} (h : Moves is) (h' : Moves js) : Moves (is ++ js) := by
  induction h with
  | nil => exact h'
  | cons hi _ ih => exact .cons hi ih
  | pushCopy size _ ih =>
    rw [List.append_assoc]
    exact .pushCopy size ih
  | popCopy size extra _ ih =>
    rw [List.append_assoc]
    exact .popCopy size extra ih

/-- What holds of single moves and of the calls of `memcpy` holds of all of them. -/
theorem forall_mem {P : Instr → Prop} {is : List Instr} (h : Moves is)
    (hmove : ∀ i : Instr, i.isMove → P i) (hcall : P (.call "memcpy")) : ∀ i ∈ is, P i := by
  induction h with
  | nil =>
    intro i hi
    cases hi
  | cons hi _ ih => exact List.forall_mem_cons.2 ⟨hmove _ hi, ih⟩
  | pushCopy size _ ih =>
    simp only [GLang.pushCopy, List.forall_mem_append, List.forall_mem_cons]
    exact ⟨⟨hmove _ rfl, hmove _ rfl, hmove _ rfl, hmove _ rfl, hmove _ rfl, hcall, hmove _ rfl,
      fun _ hi => absurd hi List.not_mem_nil⟩, ih⟩
  | popCopy size extra _ ih =>
    simp only [GLang.popCopy, List.forall_mem_append, List.forall_mem_cons]
    exact ⟨⟨hmove _ rfl, hmove _ rfl, hmove _ rfl, hmove _ rfl, hcall, hmove _ rfl, hmove _ rfl,
      fun _ hi => absurd hi List.not_mem_nil⟩, ih⟩

end Moves

theorem moves_pushCopy (size : Nat) : Moves (pushCopy size) :=
  List.append_nil (pushCopy size) ▸ .pushCopy size .nil

theorem moves_popCopy (size extra : Nat) : Moves (popCopy size extra) :=
  List.append_nil (popCopy size extra) ▸ .popCopy size extra .nil

theorem moves_pushValue (t : Ty) (a : Address) : Moves (pushValue t a) := by
  unfold pushValue
  split <;> exact .of_isMove (by simp)

theorem moves_pushIndirect (t : Ty) : Moves (pushIndirect t) := by
  unfold pushIndirect
  split
  · exact moves_pushValue t _
  · exact moves_pushCopy _

theorem moves_reserve (size : Nat) : Moves (reserve size) := by
  unfold reserve
  split <;> exact .of_isMove (by simp)

theorem moves_release (size : Nat) : Moves (release size) := by
  unfold release
  split <;> exact .of_isMove (by simp)

namespace Symbol

theorem moves_pushCode (s : Symbol) : Moves s.pushCode := by
  unfold pushCode
  split
  · exact moves_pushValue _ _
  · exact .cons rfl (moves_pushCopy _)

theorem moves_stepCode (s : Symbol) (op : StepOp) : Moves (s.stepCode op) := by
  cases op <;> exact .of_isMove (by simp [stepCode])

theorem moves_storeCode (s : Symbol) : Moves s.storeCode := by
  unfold storeCode
  split
  · exact .of_isMove (by simp)
  · exact .cons rfl (moves_popCopy _ _)

theorem moves_storeThrough (s : Symbol) (t : Ty) : Moves (s.storeThrough t) := by
  have htarget : ∀ r, (s.loadTarget r).isMove := by
    intro r
    unfold loadTarget
    split <;> rfl
  unfold storeThrough
  split
  · exact .cons rfl (.cons (htarget _) (.cons rfl .nil))
  · exact .cons (htarget _) (moves_popCopy _ _)

end Symbol

theorem Ty.moves_storeIndirect (t : Ty) : Moves t.storeIndirect := by
  unfold storeIndirect
  split
  · exact .of_isMove (by simp)
  · exact .cons rfl (moves_popCopy _ _)

theorem BinOp.moves_code (op : BinOp) : Moves op.code := by
  cases op <;> exact .of_isMove (by simp [code, combine])

end GLang
