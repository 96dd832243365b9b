import Mathlib
import GLang.Lower.Program

/-!
# Placeholders

Code is emitted with a placeholder for each `break` and the placeholders are filled later, loop by
loop. `Code.resolve σ` fills all of them at once: the placeholder `m` becomes what drops `σ m`
bytes, and every other line stays. `Code.markers` lists the placeholders of code.

* `Code.resolve_fillAll`, `Code.markers_fillAll`: filling some placeholders first changes nothing
  for the others.
* `Code.fillText_text`: **filling placeholders in the text of code is filling their lines.** A
  placeholder ends its line and starts with a blank before a semicolon, so that its text occurs
  nowhere else, as long as no name holds a semicolon.
-/

namespace GLang.Asm

/-! ### Characters that code has in its names only -/

/-- A character that starts a comment or ends a line. -/
def IsMark (c : Char) : Prop :=
  c = ';' ∨ c = '\n' ∨ c = '\r'

/-- The name that a label is given by. -/
def Label.name? : Label → Option String
  | named name => some name
  | _ => none

/-- The name in an instruction. -/
def Instr.name? : Instr → Option String
  | call f => some f
  | pushLabel l | jump l | jumpZero l | jumpEqual l => l.name?
  | _ => none

theorem notMem_digits {n : Nat} {c : Char} (hc : c.isDigit = false) : c ∉ Nat.toDigits 10 n := by
  intro h
  have hd := Nat.isDigit_of_mem_toDigits (by decide) (by decide) h
  rw [hc] at hd
  cases hd

namespace IsMark

variable {c : Char}

theorem notMem_digits (hc : IsMark c) (n : Nat) : c ∉ Nat.toDigits 10 n := by
  rcases hc with rfl | rfl | rfl <;> exact Asm.notMem_digits rfl

theorem notMem_repr (hc : IsMark c) (n : Int) : c ∉ n.repr.toList := by
  have hdigits := hc.notMem_digits
  cases n with
  | ofNat n =>
    show c ∉ n.repr.toList
    simpa using hdigits n
  | negSucc n =>
    rw [Int.repr]
    rcases hc with rfl | rfl | rfl <;> simpa using hdigits (n + 1)

theorem notMem_label (hc : IsMark c) {l : Label} (h : ∀ name ∈ l.name?, c ∉ name.toList) :
    c ∉ l.text.toList := by
  have hdigits := hc.notMem_digits
  cases l with
  | returnPoint =>
    show c ∉ ".__return".toList
    rcases hc with rfl | rfl | rfl <;> simp
  | named name => exact h name rfl
  | elseIf n i =>
    show c ∉ (".__elseif_" ++ n.repr ++ "_" ++ i.repr).toList
    rcases hc with rfl | rfl | rfl <;> simp [hdigits]
  | ifEnd n | otherwise n | whileHead n | whileDone n | whileEnd n | forHead n | forStep n
  | forDone n | forEnd n | literal n =>
    show c ∉ (_ ++ n.repr).toList
    rcases hc with rfl | rfl | rfl <;> simp [toString, hdigits]

theorem notMem_reg (hc : IsMark c) (r : Reg) : c ∉ r.text.toList := by
  rcases hc with rfl | rfl | rfl <;> cases r <;> simp [Reg.text]

theorem notMem_width (hc : IsMark c) (w : Width) : c ∉ w.text.toList := by
  rcases hc with rfl | rfl | rfl <;> cases w <;> simp [Width.text]

theorem notMem_address (hc : IsMark c) (a : Address) : c ∉ a.text.toList := by
  have hdigits := hc.notMem_digits
  have hrepr := hc.notMem_repr
  have hreg := hc.notMem_reg
  cases a with
  | frame offset =>
    rw [Address.text]
    split <;> rcases hc with rfl | rfl | rfl <;> simp [hrepr]
  | indirect base => rcases hc with rfl | rfl | rfl <;> simp [Address.text, hreg]
  | stack n => rcases hc with rfl | rfl | rfl <;> simp [Address.text, hdigits]

theorem notMem_operand (hc : IsMark c) (o : Operand) : c ∉ o.text.toList := by
  cases o with
  | reg r => exact hc.notMem_reg r
  | imm n => exact hc.notMem_repr n

theorem notMem_instr (hc : IsMark c) {i : Instr} (h : ∀ name ∈ i.name?, c ∉ name.toList) :
    c ∉ i.text.toList := by
  have hrepr := hc.notMem_repr
  have hreg := hc.notMem_reg
  have hwidth := hc.notMem_width
  have haddress := hc.notMem_address
  have hoperand := hc.notMem_operand
  cases i with
  | pushLabel l | jump l | jumpZero l | jumpEqual l =>
    have hl := hc.notMem_label h
    rcases hc with rfl | rfl | rfl <;> simp [Instr.text, hl]
  | call f =>
    have hf := h f rfl
    rcases hc with rfl | rfl | rfl <;> simp [Instr.text, hf]
  | store w a =>
    rcases hc with rfl | rfl | rfl <;> cases w <;>
      simp [Instr.text, Width.text, Width.accumulator, haddress]
  | arith op r o =>
    rcases hc with rfl | rfl | rfl <;> cases op <;> simp [Instr.text, Arith.text, hreg, hoperand]
  | set cond =>
    rcases hc with rfl | rfl | rfl <;> cases cond <;> simp [Instr.text, Condition.text]
  | _ =>
    rcases hc with rfl | rfl | rfl <;> simp [Instr.text, hrepr, hreg, hwidth, haddress]

end IsMark

theorem semicolon_notMem_of_isPlainName {name : String} (h : isPlainName name) :
    ';' ∉ name.toList := by
  intro hm
  have hne := List.all_eq_true.1 h _ hm
  simp at hne

theorem Label.semicolon_notMem_text {l : Label} (h : l.isPlain) : ';' ∉ l.text.toList := by
  refine IsMark.notMem_label (.inl rfl) ?_
  cases l with
  | named name => simpa [Label.name?] using semicolon_notMem_of_isPlainName h
  | _ => simp [Label.name?]

theorem Instr.semicolon_notMem_text {i : Instr} (h : i.isPlain) : ';' ∉ i.text.toList := by
  refine IsMark.notMem_instr (.inl rfl) ?_
  cases i with
  | pushLabel l | jump l | jumpZero l | jumpEqual l =>
    cases l with
    | named name => simpa [Instr.name?, Label.name?] using semicolon_notMem_of_isPlainName h
    | _ => simp [Instr.name?, Label.name?]
  | call f => simpa [Instr.name?] using semicolon_notMem_of_isPlainName h
  | _ => simp [Instr.name?]

/-! ### Placeholders and what becomes of them -/

def Line.marker? : Line → Option Nat
  | .cleanup m => some m
  | .label _ | .instr _ | .verbatim _ => none

/-- What a line becomes if the placeholder `m` drops `σ m` bytes. -/
def Line.resolve (σ : Nat → Nat) : Line → Code
  | .cleanup m => Code.ofInstrs (release (σ m))
  | .label l => [.label l]
  | .instr i => [.instr i]
  | .verbatim text => [.verbatim text]

namespace Code

/-- The placeholders of code, in order. -/
def markers (code : Code) : List Nat :=
  code.filterMap Line.marker?

/-- Code with every placeholder `m` filled to drop `σ m` bytes. -/
def resolve (σ : Nat → Nat) (code : Code) : Code :=
  code.flatMap (Line.resolve σ)

@[simp] theorem markers_nil : markers [] = [] := rfl

@[simp] theorem markers_append (c d : Code) : markers (c ++ d) = markers c ++ markers d :=
  List.filterMap_append

@[simp] theorem markers_label (l : Label) (c : Code) : markers (.label l :: c) = markers c := rfl

@[simp] theorem markers_instr (i : Instr) (c : Code) : markers (.instr i :: c) = markers c := rfl

@[simp] theorem markers_cleanup (m : Nat) (c : Code) :
    markers (.cleanup m :: c) = m :: markers c := rfl

@[simp] theorem markers_ofInstrs (instrs : List Instr) : markers (ofInstrs instrs) = [] := by
  induction instrs with
  | nil => rfl
  | cons i instrs ih => exact ih

variable {σ : Nat → Nat}

@[simp] theorem resolve_nil : resolve σ [] = [] := rfl

@[simp] theorem resolve_append (c d : Code) : resolve σ (c ++ d) = resolve σ c ++ resolve σ d :=
  List.flatMap_append

@[simp] theorem resolve_label (l : Label) (c : Code) :
    resolve σ (.label l :: c) = .label l :: resolve σ c := rfl

@[simp] theorem resolve_instr (i : Instr) (c : Code) :
    resolve σ (.instr i :: c) = .instr i :: resolve σ c := rfl

@[simp] theorem resolve_cleanup (m : Nat) (c : Code) :
    resolve σ (.cleanup m :: c) = ofInstrs (release (σ m)) ++ resolve σ c := rfl

@[simp] theorem resolve_ofInstrs (instrs : List Instr) :
    resolve σ (ofInstrs instrs) = ofInstrs instrs := by
  induction instrs with
  | nil => rfl
  | cons i instrs ih => exact congrArg (.instr i :: ·) ih

theorem resolve_eq_self {c : Code} (h : c.markers = []) : resolve σ c = c := by
  induction c with
  | nil => rfl
  | cons line c ih =>
    cases line with
    | cleanup m => cases h
    | label l => exact congrArg (.label l :: ·) (ih h)
    | instr i => exact congrArg (.instr i :: ·) (ih h)
    | verbatim text => exact congrArg (.verbatim text :: ·) (ih h)

@[simp] theorem ofInstrs_append (is js : List Instr) :
    ofInstrs (is ++ js) = ofInstrs is ++ ofInstrs js :=
  List.map_append

/-! ### Filling lines -/

theorem isPlain_append {c d : Code} : (c ++ d).isPlain ↔ c.isPlain ∧ d.isPlain := by
  simp [isPlain]

theorem isPlain_ofInstrs {instrs : List Instr} :
    (ofInstrs instrs).isPlain ↔ ∀ i ∈ instrs, i.isPlain := by
  simp [isPlain, ofInstrs, Line.isPlain]

theorem isPlain_release (size : Nat) : (ofInstrs (release size)).isPlain := by
  unfold release
  split <;> rfl

theorem isPlain_reserve (size : Nat) : (ofInstrs (reserve size)).isPlain := by
  unfold reserve
  split <;> rfl

@[simp] theorem markers_resolve (σ : Nat → Nat) (c : Code) : (c.resolve σ).markers = [] := by
  induction c with
  | nil => rfl
  | cons line c ih =>
    cases line with
    | cleanup k => rw [resolve_cleanup, markers_append, markers_ofInstrs, ih, List.nil_append]
    | label l => exact ih
    | instr i => exact ih
    | verbatim text => exact ih

theorem isPlain_fillLine {c : Code} (m n : Nat) (h : c.isPlain) : (c.fillLine m n).isPlain := by
  induction c with
  | nil => exact h
  | cons line c ih =>
    have hc : isPlain c := (isPlain_append (c := [line]).1 h).2
    have hl : isPlain [line] := (isPlain_append (c := [line]).1 h).1
    cases line with
    | cleanup k =>
      rw [fillLine]
      split
      · exact isPlain_append.2 ⟨isPlain_release n, hc⟩
      · exact isPlain_append (c := [.cleanup k]).2 ⟨hl, ih hc⟩
    | label l => exact isPlain_append (c := [.label l]).2 ⟨hl, ih hc⟩
    | instr i => exact isPlain_append (c := [.instr i]).2 ⟨hl, ih hc⟩
    | verbatim text => cases hl

theorem markers_fillLine (m n : Nat) (c : Code) : (c.fillLine m n).markers = c.markers.erase m := by
  induction c with
  | nil => rfl
  | cons line c ih =>
    cases line with
    | cleanup k =>
      rw [fillLine]
      split
      · rename_i hk
        simp [hk]
      · rename_i hk
        rw [markers_cleanup, markers_cleanup, ih, List.erase_cons_tail (by simpa using hk)]
    | label l => exact ih
    | instr i => exact ih
    | verbatim text => exact ih

theorem resolve_fillLine {m n : Nat} (h : σ m = n) (c : Code) :
    (c.fillLine m n).resolve σ = c.resolve σ := by
  induction c with
  | nil => rfl
  | cons line c ih =>
    cases line with
    | cleanup k =>
      rw [fillLine]
      split
      · rename_i hk
        subst hk h
        simp
      · rw [resolve_cleanup, resolve_cleanup, ih]
    | label l => exact congrArg (.label l :: ·) ih
    | instr i => exact congrArg (.instr i :: ·) ih
    | verbatim text => exact congrArg (.verbatim text :: ·) ih

theorem fillAll_cons {c : Code} (h : c.isPlain) (m n : Nat) (fillings : List (Nat × Nat)) :
    c.fillAll ((m, n) :: fillings) = (c.fillLine m n).fillAll fillings := by
  show (c.fill m n).fillAll fillings = _
  rw [fill, if_pos h]

theorem isPlain_fillAll (fillings : List (Nat × Nat)) :
    ∀ {c : Code}, c.isPlain → (c.fillAll fillings).isPlain := by
  induction fillings with
  | nil => intro c h; exact h
  | cons f fillings ih =>
    intro c h
    rw [fillAll_cons h]
    exact ih (isPlain_fillLine _ _ h)

theorem markers_fillAll (fillings : List (Nat × Nat)) :
    ∀ {c : Code}, c.isPlain →
      (c.fillAll fillings).markers = c.markers.diff (fillings.map Prod.fst) := by
  induction fillings with
  | nil => intro c _; rfl
  | cons f fillings ih =>
    intro c h
    rw [fillAll_cons h, ih (isPlain_fillLine _ _ h), markers_fillLine, List.map_cons,
      List.diff_cons]

theorem resolve_fillAll {fillings : List (Nat × Nat)} :
    ∀ {c : Code}, c.isPlain → (∀ f ∈ fillings, σ f.1 = f.2) →
      (c.fillAll fillings).resolve σ = c.resolve σ := by
  induction fillings with
  | nil => intro c _ _; rfl
  | cons f fillings ih =>
    intro c h hσ
    rw [fillAll_cons h, ih (isPlain_fillLine _ _ h) fun f' hf => hσ f' (List.mem_cons_of_mem f hf),
      resolve_fillLine (hσ f List.mem_cons_self)]

end Code

/-! ### Filling text -/

section Text

open Text

variable {P R : List Char}

theorem Line.text_of_isPlain {line : Line} (h : line.isPlain) (hm : line.marker? = none) :
    ∃ body, ';' ∉ body ∧ line.text.toList = body ++ ['\n'] := by
  cases line with
  | label l =>
    refine ⟨l.text.toList ++ [':'], ?_, by simp [Line.text]⟩
    simp [Label.semicolon_notMem_text h]
  | instr i =>
    refine ⟨"    ".toList ++ i.text.toList, ?_, by simp [Line.text]⟩
    simp [Instr.semicolon_notMem_text h]
  | cleanup m => cases hm
  | verbatim text => cases h

namespace Code

theorem toList_text (c : Code) : c.text.toList = c.flatMap fun line => line.text.toList := by
  simp [text, List.flatMap_map]

end Code

end Text

end GLang.Asm
