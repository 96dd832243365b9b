import GLang.Lower.Program
import GLang.Proofs.Emission
import GLang.Proofs.Machine

/-!
# The labels of a function

Labels are numbered by counters, one for each kind of statement that has labels. A phrase takes its
numbers from where the counters stand, and leaves them after the last number taken. So no label is
defined twice.

* `Numbered`: labels that are distinct and lie between two states of the counters, apart from some
  that belong to the statement around.
* `EmitsWith.numbered`: the labels of the code of a phrase are so, and with it
  `EmitsWith.nodup_labels_frameCode`: those of a function are distinct.
* `Code.target_append`: a jump to such a label goes to the one place where it stands.
-/

namespace GLang

open Asm

/-! ### The labels in code -/

/-- The label that a line defines. -/
def Asm.Line.label? : Line → Option Label
  | .label l => some l
  | _ => none

namespace Asm.Code

/-- The labels that code defines, in order. -/
def labels (code : Code) : List Label :=
  code.filterMap Line.label?

@[simp] theorem labels_nil : labels [] = [] := rfl

@[simp] theorem labels_append (c d : Code) : labels (c ++ d) = labels c ++ labels d :=
  List.filterMap_append

@[simp] theorem labels_label (l : Label) (c : Code) : labels (.label l :: c) = l :: labels c := rfl

@[simp] theorem labels_instr (i : Instr) (c : Code) : labels (.instr i :: c) = labels c := rfl

@[simp] theorem labels_cleanup (m : Nat) (c : Code) : labels (.cleanup m :: c) = labels c := rfl

@[simp] theorem labels_ofInstrs (instrs : List Instr) : labels (ofInstrs instrs) = [] := by
  induction instrs with
  | nil => rfl
  | cons i instrs ih => exact ih

@[simp] theorem labels_resolve (σ : Nat → Nat) (c : Code) : (c.resolve σ).labels = c.labels := by
  induction c with
  | nil => rfl
  | cons line c ih =>
    rw [← List.singleton_append, resolve_append, labels_append, labels_append, ih]
    cases line with
    | cleanup m => simp
    | label | instr | verbatim => rfl

@[simp] theorem labels_block (size : Nat) (c : Code) : (block size c).labels = c.labels := by
  simp [block]

@[simp] theorem labels_loop (size : Nat) (c : Code) (done breakTo : Label) :
    (loop size c done breakTo).labels = c.labels ++ [done, breakTo] := by
  simp [loop]

/-- A jump goes to where its label stands. -/
theorem target_append {l : Label} {c : Code} (hl : l ∉ c.labels) (rest : Code) :
    Code.target l (c ++ .label l :: rest) = some (.label l :: rest) := by
  induction c with
  | nil => rw [List.nil_append, target, if_pos rfl]
  | cons line c ih =>
    have hline : line ≠ .label l := by
      rintro rfl
      exact hl List.mem_cons_self
    have hc : l ∉ labels c := by
      intro h
      obtain ⟨a, ha, h⟩ := List.mem_filterMap.1 h
      exact hl (List.mem_filterMap.2 ⟨a, List.mem_cons_of_mem line ha, h⟩)
    rw [List.cons_append, target, if_neg hline, ih hc]

/-- A label that is defined once stands on one line. -/
theorem exists_getElem?_iff_of_mem {l : Label} {code : Code}
    (hcode : code.labels.Nodup)
    (hl : l ∈ code.labels) : ∃ j, ∀ k : Nat, code[k]? = some (.label l) ↔ k = j := by
  induction code with
  | nil => cases hl
  | cons line code ih =>
    by_cases hline : line = .label l
    · subst hline
      refine ⟨0, fun k => ?_⟩
      cases k with
      | zero => simp
      | succ k =>
        have hnot : ¬ code[k]? = some (.label l) := fun h =>
          (List.nodup_cons.1 hcode).1 (List.mem_filterMap.2 ⟨_, List.mem_of_getElem? h, rfl⟩)
        simpa using hnot
    · rw [← List.singleton_append, labels_append] at hcode hl
      have hl : l ∈ labels code := by
        refine (List.mem_append.1 hl).resolve_left fun h => ?_
        cases line <;> simp [labels, Line.label?] at h hline
        exact hline h.symm
      obtain ⟨j, hj⟩ := ih (List.nodup_append'.1 hcode).2.1 hl
      refine ⟨j + 1, fun k => ?_⟩
      cases k with
      | zero => simpa using hline
      | succ k => simpa using hj k

end Asm.Code

/-! ### Numbers -/

/-- The counters do not go back. -/
instance : LE LabelCounters where
  le n n' := ∀ k, n.get k ≤ n'.get k

namespace LabelCounters

variable {n n₁ n₂ : LabelCounters}

theorem le_refl (n : LabelCounters) : n ≤ n := fun _ => Nat.le_refl _

theorem le_trans (h : n ≤ n₁) (h' : n₁ ≤ n₂) : n ≤ n₂ := fun k => Nat.le_trans (h k) (h' k)

theorem get_bump (n : LabelCounters) (k : LabelKind) : (n.bump k).get k = n.get k + 1 := by
  cases k <;> rfl

theorem le_bump (n : LabelCounters) (k : LabelKind) : n ≤ n.bump k := by
  intro j
  cases k <;> cases j <;> simp [get, bump]

end LabelCounters

namespace Asm.Label

/-- The counter that a label is numbered by, and its number. -/
def number? : Label → Option (LabelKind × Nat)
  | ifEnd n | elseIf n _ | otherwise n => some (.branch, n)
  | whileHead n | whileDone n | whileEnd n => some (.whileLoop, n)
  | forHead n | forStep n | forDone n | forEnd n => some (.forLoop, n)
  | returnPoint | literal _ | named _ => none

theorem number?_elseIf (k : Nat) (js : List Nat) :
    ∀ l ∈ js.map (elseIf k), l.number? = some (.branch, k) :=
  List.forall_mem_map.2 fun _ _ => rfl

/-- The label has a number that the counters give between `n` and `n'`. -/
def Between (n n' : LabelCounters) (l : Label) : Prop :=
  ∃ k j, l.number? = some (k, j) ∧ n.get k ≤ j ∧ j < n'.get k

namespace Between

variable {n n₁ n₂ n₃ : LabelCounters} {l : Label}

theorem mono (h : l.Between n₁ n₂) (hn : n ≤ n₁) (hn' : n₂ ≤ n₃) : l.Between n n₃ := by
  obtain ⟨k, j, hl, hj, hj'⟩ := h
  exact ⟨k, j, hl, Nat.le_trans (hn k) hj, Nat.lt_of_lt_of_le hj' (hn' k)⟩

theorem not_both (h : l.Between n n₁) (h' : l.Between n₁ n₂) : False := by
  obtain ⟨k, j, hl, -, hj⟩ := h
  obtain ⟨k', j', hl', hj', -⟩ := h'
  cases hl.symm.trans hl'
  omega

/-- The labels of a statement that has just been numbered. -/
theorem of_bump {k : LabelKind} (hl : l.number? = some (k, n.get k)) (hn : n.bump k ≤ n₁) :
    l.Between n n₁ := by
  have := hn k
  rw [LabelCounters.get_bump] at this
  exact ⟨k, n.get k, hl, Nat.le_refl _, by omega⟩

end Between

/-- Labels of a statement are not among those that are numbered after it. -/
theorem not_between_of_forall {n n' : LabelCounters} {k : LabelKind} {j : Nat} {ls : List Label}
    (hj : j < n.get k) (hls : ∀ l ∈ ls, l.number? = some (k, j)) : ∀ l ∈ ls, ¬ l.Between n n' := by
  rintro l hl ⟨k', j', hl', hle, -⟩
  cases (hls l hl).symm.trans hl'
  omega

end Asm.Label

/-! ### Labels between two states of the counters -/

/-- The labels `ls` are distinct, and numbered between `n` and `n'`, apart from those in `own`. -/
structure Numbered (n n' : LabelCounters) (own ls : List Label) : Prop where
  le : n ≤ n'
  nodup : ls.Nodup
  mem : ∀ l ∈ ls, l ∈ own ∨ l.Between n n'

namespace Numbered

variable {n n₁ n₂ : LabelCounters} {own own₁ own₂ ls ls₁ ls₂ : List Label}

theorem nil (n : LabelCounters) : Numbered n n [] [] :=
  ⟨n.le_refl, List.nodup_nil, fun _ h => absurd h List.not_mem_nil⟩

theorem of_nodup (n : LabelCounters) (h : ls.Nodup) : Numbered n n ls ls :=
  ⟨n.le_refl, h, fun _ h => .inl h⟩

theorem weaken (h : Numbered n n₁ own ls) (hown : own ⊆ own₁) : Numbered n n₁ own₁ ls :=
  ⟨h.le, h.nodup, fun l hl => (h.mem l hl).imp_left (hown ·)⟩

/-- Labels that follow each other. Those of the statement around are older than all others. -/
theorem append (h₁ : Numbered n n₁ own₁ ls₁) (h₂ : Numbered n₁ n₂ own₂ ls₂)
    (hdisjoint : own₁.Disjoint own₂) (hold : ∀ l ∈ own₁ ++ own₂, ¬ l.Between n n₂) :
    Numbered n n₂ (own₁ ++ own₂) (ls₁ ++ ls₂) where
  le := LabelCounters.le_trans h₁.le h₂.le
  nodup := by
    refine List.nodup_append'.2 ⟨h₁.nodup, h₂.nodup, fun l hl hl' => ?_⟩
    rcases h₁.mem l hl with ho | hb <;> rcases h₂.mem l hl' with ho' | hb'
    · exact hdisjoint ho ho'
    · exact hold l (List.mem_append_left _ ho) (hb'.mono h₁.le n₂.le_refl)
    · exact hold l (List.mem_append_right _ ho') (hb.mono n.le_refl h₂.le)
    · exact hb.not_both hb'
  mem l hl := by
    rcases List.mem_append.1 hl with hl | hl
    · rcases h₁.mem l hl with ho | hb
      · exact .inl (List.mem_append_left _ ho)
      · exact .inr (hb.mono n.le_refl h₂.le)
    · rcases h₂.mem l hl with ho | hb
      · exact .inl (List.mem_append_right _ ho)
      · exact .inr (hb.mono h₁.le n₂.le_refl)

/-- The labels of a statement that has just been numbered are among those after it. -/
theorem absorb {k : LabelKind} (h : Numbered (n.bump k) n₁ own ls)
    (hown : ∀ l ∈ own, l.number? = some (k, n.get k)) : Numbered n n₁ [] ls where
  le := LabelCounters.le_trans (n.le_bump k) h.le
  nodup := h.nodup
  mem l hl := by
    rcases h.mem l hl with ho | hb
    · exact .inr (.of_bump (hown l ho) h.le)
    · exact .inr (hb.mono (n.le_bump k) n₁.le_refl)

end Numbered

namespace Phrase

/-- The labels of the statement around that stand in the code of a part of it. -/
def ownLabels : Phrase → List Label
  | arms n _ i rest => (List.range' i rest.length).map (.elseIf n)
  | otherwise n (some _) => [.otherwise n]
  | _ => []

/-- The number of the `if` statement that a phrase is a part of. -/
def number? : Phrase → Option Nat
  | arm n _ _ | arms n _ _ _ | otherwise n _ => some n
  | stmt _ | seq _ | clause _ => none

end Phrase

/-- **The labels of a phrase are distinct.** Their numbers lie between the states of the counters
before and after it. -/
theorem EmitsWith.numbered {total : List Nat → Nat} {σ : Nat → Nat} {result : Option Ty}
    {exit : Option Exit} {ctx : Context} {n n' : LabelCounters} {p : Phrase} {code : Code}
    (h : EmitsWith total σ result exit ctx n p code n') :
    (∀ k, p.number? = some k → k < n.branch) → Numbered n n' p.ownLabels code.labels := by
  induction h with
  | declare | declareInit | assign | store | storeAt | step | breakLoop | continueLoop | ret
  | retValue | run | seqNil | armsNil | otherwiseNone | clauseNone =>
    intro _
    simpa [Phrase.ownLabels] using Numbered.nil _
  | clauseSome hs ih =>
    intro _
    exact ih (by simp [Phrase.number?])
  | @seqCons exit ctx n n₁ n₂ s rest code more hs hrest ih₁ ih₂ =>
    intro _
    have h₁ : Numbered n n₁ [] code.labels := ih₁ (by simp [Phrase.number?])
    have h₂ : Numbered n₁ n₂ [] more.labels := ih₂ (by simp [Phrase.number?])
    simpa [Phrase.ownLabels] using h₁.append h₂ (List.disjoint_nil_left _) (by simp)
  | arm hsize htest hbody ih =>
    intro _
    simpa [Phrase.ownLabels] using ih (by simp [Phrase.number?])
  | @otherwiseSome exit ctx n n' k body size code hsize hbody ih =>
    intro hk
    have h₁ : Numbered n n' [] code.labels := ih (by simp [Phrase.number?])
    have happend := (Numbered.of_nodup n (List.nodup_singleton (Label.otherwise k))).append h₁
      (List.disjoint_nil_right _) (Label.not_between_of_forall (k := .branch) (hk k rfl) (by simp
        [Label.number?]))
    simpa [Phrase.ownLabels] using happend
  | @armsCons exit ctx n n₁ n₂ k last i a rest code more ha hrest ih₁ ih₂ =>
    intro hk
    have hlt : k < n.get .branch := hk k rfl
    have h₁ : Numbered n n₁ [] code.labels := ih₁ fun j hj => by cases hj; exact hlt
    have hlt₁ : k < n₁.get .branch := Nat.lt_of_lt_of_le hlt (h₁.le .branch)
    have h₂ : Numbered n₁ n₂ ((List.range' (i + 1) rest.length).map (.elseIf k)) more.labels :=
      ih₂ fun j hj => by cases hj; exact hlt₁
    have h₃ := h₁.append h₂ (List.disjoint_nil_left _)
      (Label.not_between_of_forall hlt (Label.number?_elseIf k _))
    have hfresh : List.Disjoint [Label.elseIf k i]
        ([] ++ (List.range' (i + 1) rest.length).map (.elseIf k)) := by
      rw [List.nil_append, List.singleton_disjoint, List.mem_map]
      rintro ⟨j, hj, heq⟩
      cases heq
      exact Nat.not_succ_le_self i (List.mem_range'_1.1 hj).1
    have h₄ := (Numbered.of_nodup n (List.nodup_singleton (Label.elseIf k i))).append h₃
      hfresh (Label.not_between_of_forall hlt
        (List.forall_mem_cons.2 ⟨rfl, Label.number?_elseIf k _⟩))
    simpa [Phrase.ownLabels, List.range'_succ] using h₄
  | @branch exit ctx n n₁ n₂ n₃ first others otherwise head arms tail hfirst harms helse ih₁ ih₂
      ih₃ =>
    intro _
    have hlt : n.branch < (n.bump .branch).get .branch := Nat.lt_succ_self _
    have h₁ : Numbered (n.bump .branch) n₁ [] head.labels :=
      ih₁ fun j hj => by cases hj; exact hlt
    have hlt₁ : n.branch < n₁.get .branch := Nat.lt_of_lt_of_le hlt (h₁.le .branch)
    have h₂ : Numbered n₁ n₂ ((List.range' 0 others.length).map (.elseIf n.branch)) arms.labels :=
      ih₂ fun j hj => by cases hj; exact hlt₁
    have hlt₂ : n.branch < n₂.get .branch := Nat.lt_of_lt_of_le hlt₁ (h₂.le .branch)
    have h₃ := ih₃ fun j hj => by cases hj; exact hlt₂
    have helse : Phrase.ownLabels (.otherwise n.branch otherwise) ⊆ [.otherwise n.branch] := by
      cases otherwise <;> simp [Phrase.ownLabels]
    have h₃ : Numbered n₂ n₃ [.otherwise n.branch] tail.labels := h₃.weaken helse
    have hown : ∀ l ∈ (List.range' 0 others.length).map (Label.elseIf n.branch) ++
        ([Label.otherwise n.branch] ++ [Label.ifEnd n.branch]),
        l.number? = some (.branch, n.branch) :=
      List.forall_mem_append.2 ⟨Label.number?_elseIf _ _, by simp [Label.number?]⟩
    -- The labels of this statement are older than all that are numbered after it.
    have h₄ := h₃.append (Numbered.of_nodup n₃ (List.nodup_singleton (Label.ifEnd n.branch)))
      (by simp) (Label.not_between_of_forall hlt₂ (by simp [Label.number?]))
    have h₅ := h₂.append h₄ (by simp [List.disjoint_left])
      (Label.not_between_of_forall hlt₁ hown)
    have h₆ := h₁.append h₅ (List.disjoint_nil_left _) (Label.not_between_of_forall hlt hown)
    have h₇ := h₆.absorb (k := .branch) hown
    simpa [Phrase.ownLabels] using h₇
  | @whileLoop exit ctx n n' condition body size test code hsize htest hbody ih =>
    intro _
    have hlt : n.whileLoop < (n.bump .whileLoop).get .whileLoop := Nat.lt_succ_self _
    have h₁ : Numbered (n.bump .whileLoop) n' [] code.labels := ih (by simp [Phrase.number?])
    have hlt₁ : n.whileLoop < n'.get .whileLoop := Nat.lt_of_lt_of_le hlt (h₁.le .whileLoop)
    have h₂ := h₁.append (Numbered.of_nodup n'
      (show [Label.whileDone n.whileLoop, .whileEnd n.whileLoop].Nodup by simp))
      (List.disjoint_nil_left _) (Label.not_between_of_forall hlt (by simp [Label.number?]))
    have h₃ := (Numbered.of_nodup (n.bump .whileLoop)
      (List.nodup_singleton (Label.whileHead n.whileLoop))).append h₂ (by simp)
      (Label.not_between_of_forall hlt (by simp [Label.number?]))
    have h₄ := h₃.absorb (k := .whileLoop) (by simp [Label.number?, LabelCounters.get])
    simpa [Phrase.ownLabels] using h₄
  | @forLoop exit ctx n n₁ n₂ n₃ init condition increment body size first test code step hsize hinit
      htest hbody hstep ih₁ ih₂ ih₃ =>
    intro _
    have hlt : n.forLoop < (n.bump .forLoop).get .forLoop := Nat.lt_succ_self _
    have h₁ : Numbered (n.bump .forLoop) n₁ [] first.labels := ih₁ (by simp [Phrase.number?])
    have h₂ : Numbered n₁ n₂ [] code.labels := ih₂ (by simp [Phrase.number?])
    have h₃ : Numbered n₂ n₃ [] step.labels := ih₃ (by simp [Phrase.number?])
    have hlt₁ : n.forLoop < n₁.get .forLoop := Nat.lt_of_lt_of_le hlt (h₁.le .forLoop)
    have hlt₂ : n.forLoop < n₂.get .forLoop := Nat.lt_of_lt_of_le hlt₁ (h₂.le .forLoop)
    have h₄ := h₃.append (Numbered.of_nodup n₃
      (show [Label.forDone n.forLoop, .forEnd n.forLoop].Nodup by simp))
      (List.disjoint_nil_left _) (Label.not_between_of_forall hlt₂ (by simp [Label.number?]))
    have h₅ := (Numbered.of_nodup n₂ (List.nodup_singleton (Label.forStep n.forLoop))).append h₄
      (by simp) (Label.not_between_of_forall hlt₂ (by simp [Label.number?]))
    have h₆ := h₂.append h₅ (List.disjoint_nil_left _)
      (Label.not_between_of_forall hlt₁ (by simp [Label.number?]))
    have h₇ := (Numbered.of_nodup n₁ (List.nodup_singleton (Label.forHead n.forLoop))).append h₆
      (by simp) (Label.not_between_of_forall hlt₁ (by simp [Label.number?]))
    have h₈ := h₁.append h₇ (List.disjoint_nil_left _)
      (Label.not_between_of_forall hlt (by simp [Label.number?]))
    have h₉ := h₈.absorb (k := .forLoop) (by simp [Label.number?, LabelCounters.get])
    simpa [Phrase.ownLabels] using h₉

@[simp] theorem FunctionDecl.labels_frameCode (name : String) (frame : Nat) (body : Code) :
    (frameCode name frame body).labels = .named name :: body.labels ++ [.returnPoint] := by
  simp [frameCode]

/-- The labels of a function are distinct: those of the body have numbers, the two of the frame have
none. -/
theorem EmitsWith.nodup_labels_frameCode {total : List Nat → Nat} {σ : Nat → Nat}
    {result : Option Ty} {exit : Option Exit} {ctx : Context} {n n' : LabelCounters}
    {body : List Stmt} {code : Code} (h : EmitsWith total σ result exit ctx n (.seq body) code n')
    (name : String) (frame : Nat) :
    (FunctionDecl.frameCode name frame (code.resolve σ)).labels.Nodup := by
  have hnumbered := h.numbered (by simp [Phrase.number?])
  have hsome : ∀ l ∈ code.labels, l.number? ≠ none := by
    intro l hl hnone
    rcases hnumbered.mem l hl with hown | ⟨k, j, hsome, -⟩
    · cases hown
    · cases hnone.symm.trans hsome
  have hname : Label.named name ∉ code.labels := fun h => hsome _ h rfl
  have hreturn : Label.returnPoint ∉ code.labels := fun h => hsome _ h rfl
  simp [List.nodup_append', hnumbered.nodup, hname, hreturn]

end GLang
