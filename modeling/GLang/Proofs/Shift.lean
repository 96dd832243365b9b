import GLang.Proofs.Calls
import GLang.Proofs.Composition
import GLang.Proofs.FunctionCode

/-!
# Counters that start elsewhere

A compilation counts labels, scopes and placeholders, also across functions. `Context.shift` moves
all counters of a context, with everything in it that has been numbered by them, and the operations
on contexts do not notice: what they give is shifted by the same amount, and nothing else changes.
The one exception is a scope that is asked for its size before it is closed, whose number is in the
error; `Context.settle_shift` is about exits that leave closed scopes only.

`Asm.Code.renumber` is what is left of a shift in the code of a function, which has labels but no
placeholders.
-/

namespace GLang

open Asm

/-! ### Labels -/

instance : Add LabelCounters where
  add n m := ⟨n.branch + m.branch, n.whileLoop + m.whileLoop, n.forLoop + m.forLoop⟩

namespace LabelCounters

theorem get_add (n m : LabelCounters) (k : LabelKind) : (n + m).get k = n.get k + m.get k := by
  cases k <;> rfl

theorem zero_add (n : LabelCounters) : {} + n = n := by
  show LabelCounters.mk (0 + n.branch) (0 + n.whileLoop) (0 + n.forLoop) = n
  simp only [Nat.zero_add]

theorem bump_add (n m : LabelCounters) (k : LabelKind) : (n + m).bump k = n.bump k + m := by
  have hadd : ∀ a b : LabelCounters, a + b =
      ⟨a.branch + b.branch, a.whileLoop + b.whileLoop, a.forLoop + b.forLoop⟩ := fun _ _ => rfl
  cases k <;> simp only [hadd, bump] <;> congr 1 <;> omega

end LabelCounters

namespace Asm

@[simp] theorem Label.isPlain_renumber (δ : LabelCounters) (l : Label) :
    (l.renumber δ).isPlain = l.isPlain := by
  cases l <;> rfl

end Asm

/-- By how much the counters of a compilation are moved. -/
structure Shift where
  labels : LabelCounters
  scopes : Nat
  markers : Nat

variable (δ : Shift)

/-! ### Code -/

namespace Asm

def Line.shift (δ : Shift) : Line → Line
  | cleanup m => cleanup (m + δ.markers)
  | line => line.renumber δ.labels

/-- Code with other numbers in its labels, jumps and placeholders. -/
def Code.shift (δ : Shift) (code : Code) : Code :=
  code.map (Line.shift δ)

@[simp] theorem Line.isPlain_shift (line : Line) : (line.shift δ).isPlain = line.isPlain := by
  cases line with
  | label l => exact l.isPlain_renumber δ.labels
  | instr i => cases i <;> first | rfl | exact Label.isPlain_renumber _ _
  | cleanup | verbatim => rfl

namespace Code

@[simp] theorem shift_nil : shift δ [] = [] := rfl

@[simp] theorem shift_append (c d : Code) : (c ++ d).shift δ = c.shift δ ++ d.shift δ :=
  List.map_append

@[simp] theorem shift_label (l : Label) (c : Code) :
    shift δ (.label l :: c) = .label (l.renumber δ.labels) :: c.shift δ := rfl

@[simp] theorem shift_jump (l : Label) (c : Code) :
    shift δ (.instr (.jump l) :: c) = .instr (.jump (l.renumber δ.labels)) :: c.shift δ := rfl

theorem isPlain_shift (code : Code) : (code.shift δ).isPlain = code.isPlain := by
  simp only [isPlain, shift, List.all_map]
  congr 1
  funext line
  exact line.isPlain_shift δ

/-- The code of an expression has no numbers. -/
theorem shift_ofInstrs {instrs : List Instr} {d : Declarations} (h : Straight d instrs) :
    (ofInstrs instrs).shift δ = ofInstrs instrs := by
  have hline : ∀ i ∈ instrs, (Line.instr i).shift δ = .instr i :=
    h.forall_mem (fun i hi => congrArg Line.instr (Instr.renumber_of_isMove δ.labels hi))
      (fun _ => rfl) fun _ => rfl
  rw [shift, ofInstrs, List.map_map]
  exact List.map_congr_left hline

theorem shift_ofInstrs_of_moves {instrs : List Instr} (h : Moves instrs) :
    (ofInstrs instrs).shift δ = ofInstrs instrs :=
  shift_ofInstrs δ (d := {}) (.moves h)

/-- Without placeholders only the labels are left. -/
theorem shift_eq_renumber {code : Code} (h : code.markers = []) :
    code.shift δ = code.renumber δ.labels := by
  refine List.map_congr_left fun line hline => ?_
  cases line with
  | cleanup m =>
    have hmem : m ∈ code.markers := List.mem_filterMap.2 ⟨_, hline, rfl⟩
    rw [h] at hmem
    cases hmem
  | _ => rfl

theorem fillLine_shift (m n : Nat) (code : Code) :
    (code.shift δ).fillLine (m + δ.markers) n = (code.fillLine m n).shift δ := by
  induction code with
  | nil => rfl
  | cons line code ih =>
    cases line with
    | cleanup k =>
      show fillLine (m + δ.markers) n (.cleanup (k + δ.markers) :: shift δ code) = _
      by_cases hk : k = m
      · rw [fillLine, fillLine, if_pos (by omega), if_pos hk, shift_append,
          shift_ofInstrs_of_moves δ (moves_release n)]
      · rw [fillLine, fillLine, if_neg (by omega), if_neg hk, ih]
        rfl
    | label l => exact congrArg (.label (l.renumber δ.labels) :: ·) ih
    | instr i => exact congrArg (.instr (i.renumber δ.labels) :: ·) ih
    | verbatim text => exact congrArg (.verbatim text :: ·) ih

/-- Filling shifted placeholders is filling placeholders. -/
theorem fillAll_shift (fillings : List (Nat × Nat)) : ∀ {code : Code}, code.isPlain →
    (code.shift δ).fillAll (fillings.map (Prod.map (· + δ.markers) id)) =
      (code.fillAll fillings).shift δ := by
  induction fillings with
  | nil => exact fun _ => rfl
  | cons f fillings ih =>
    intro code h
    have hshift : (code.shift δ).isPlain := (isPlain_shift δ code).trans h
    rw [List.map_cons, Prod.map, fillAll_cons hshift, fillAll_cons h, fillLine_shift]
    exact ih (isPlain_fillLine _ _ h)

end Code

end Asm

/-! ### Scopes -/

namespace Scope

def shift (δ : Shift) (s : Scope) : Scope :=
  { s with id := s.id + δ.scopes, labels := s.labels.map (LoopLabels.renumber δ.labels) }

theorem complete_shift (s : Scope) : (s.shift δ).complete = s.complete.shift δ := by
  unfold complete
  split <;> split <;> first | rfl | contradiction

theorem allocate_shift (s : Scope) (x : String) (t : Ty) :
    (s.shift δ).allocate x t =
      (s.allocate x t).map (Prod.map (fun symbol => symbol) (shift δ)) := by
  unfold allocate
  rw [show (s.shift δ).get? x = s.get? x from rfl, show (s.shift δ).kind = s.kind from rfl,
    show (s.shift δ).cursor = s.cursor from rfl]
  split
  · rfl
  · split
    · rfl
    · cases place? s.cursor t <;> rfl

end Scope

namespace ScopeStack

def shift (δ : Shift) (s : ScopeStack) : ScopeStack where
  scopes := s.scopes.map (Scope.shift δ)
  nextId := s.nextId + δ.scopes
  closed := s.closed.map (Prod.map (· + δ.scopes) id)

theorem find?_shift (s : ScopeStack) (x : String) : (s.shift δ).find? x = s.find? x := by
  show (s.scopes.map (Scope.shift δ)).findSome? (·.get? x) = _
  rw [List.findSome?_map]
  rfl

theorem startOf_shift (s : ScopeStack) (kind : ScopeKind) :
    (s.shift δ).startOf kind = s.startOf kind := by
  cases kind <;> try rfl
  all_goals
    simp only [startOf, shift]
    cases s.scopes <;> rfl

theorem openScope_shift (s : ScopeStack) (kind : ScopeKind) (labels : Option LoopLabels) :
    (s.shift δ).openScope kind (labels.map (LoopLabels.renumber δ.labels)) =
      (s.openScope kind labels).map (· + δ.scopes) (shift δ) := by
  have hnext : s.nextId + δ.scopes + 1 = s.nextId + 1 + δ.scopes := by omega
  unfold openScope
  rw [startOf_shift]
  simp only [shift, Prod.map, List.map_cons, hnext]
  rfl

theorem pop_shift (s : ScopeStack) (kind : ScopeKind) :
    (s.shift δ).pop kind = (s.pop kind).map (Prod.map (Scope.shift δ) (shift δ)) := by
  unfold pop
  cases hs : s.scopes with
  | nil => simp only [shift, hs, List.map_nil]; rfl
  | cons top rest =>
    simp only [shift, hs, List.map_cons]
    rw [show (top.shift δ).kind = top.kind from rfl]
    split
    · rw [Scope.complete_shift]
      rfl
    · rfl

theorem declare_shift (s : ScopeStack) (x : String) (t : Ty) :
    (s.shift δ).declare x t = (s.declare x t).map (Prod.map id (shift δ)) := by
  unfold declare
  cases hs : s.scopes with
  | nil => simp only [shift, hs, List.map_nil]; rfl
  | cons top rest =>
    simp only [shift, hs, List.map_cons, Scope.allocate_shift]
    cases top.allocate x t <;> rfl

theorem loopLabels_shift (s : ScopeStack) :
    (s.shift δ).loopLabels = s.loopLabels.map (LoopLabels.renumber δ.labels) := by
  have hfind : (s.scopes.map (Scope.shift δ)).findSome? (·.labels) =
      (s.scopes.findSome? (·.labels)).map (LoopLabels.renumber δ.labels) := by
    induction s.scopes with
    | nil => rfl
    | cons scope scopes ih =>
      rw [List.map_cons, List.findSome?_cons, List.findSome?_cons]
      rw [show (scope.shift δ).labels =
        scope.labels.map (LoopLabels.renumber δ.labels) from rfl, ih]
      cases scope.labels <;> rfl
  unfold loopLabels
  rw [show (s.shift δ).scopes = s.scopes.map (Scope.shift δ) from rfl, hfind]
  cases s.scopes.findSome? (·.labels) <;> rfl

theorem toLoop?_shift (scopes : List Scope) :
    toLoop? (scopes.map (Scope.shift δ)) =
      (toLoop? scopes).map (Prod.map (· + δ.scopes) (List.map (· + δ.scopes))) := by
  induction scopes with
  | nil => rfl
  | cons scope scopes ih =>
    have hsome : (scope.shift δ).labels.isSome = scope.labels.isSome := Option.isSome_map
    rw [List.map_cons, toLoop?, toLoop?, hsome, ih, show (scope.shift δ).kind = scope.kind from rfl]
    split
    · rfl
    · split
      · rfl
      · cases toLoop? scopes <;> rfl

theorem scopesToLoop_shift (s : ScopeStack) :
    (s.shift δ).scopesToLoop =
      s.scopesToLoop.map (Prod.map (· + δ.scopes) (List.map (· + δ.scopes))) := by
  unfold scopesToLoop
  rw [show (s.shift δ).scopes = s.scopes.map (Scope.shift δ) from rfl, toLoop?_shift]
  cases toLoop? s.scopes <;> rfl

theorem closedSize?_shift (s : ScopeStack) (n : Nat) :
    (s.shift δ).closedSize? (n + δ.scopes) = s.closedSize? n := by
  show (s.closed.map (Prod.map (· + δ.scopes) id)).lookup _ = s.closed.lookup n
  induction s.closed with
  | nil => rfl
  | cons q closed ih =>
    have hid : (n + δ.scopes == q.1 + δ.scopes) = (n == q.1) := by
      rw [Bool.eq_iff_iff]
      simp
    rw [List.map_cons, Prod.map, List.lookup_cons, List.lookup_cons, hid, ih]
    rfl

end ScopeStack

/-! ### Contexts -/

/-- The scopes that an exit leaves. -/
def LoopExit.crossed : LoopExit → List Nat
  | break_ _ _ crossed | continue_ _ crossed => crossed

def LoopExit.shift (δ : Shift) : LoopExit → LoopExit
  | break_ loop marker crossed =>
    break_ (loop + δ.scopes) (marker + δ.markers) (crossed.map (· + δ.scopes))
  | continue_ loop crossed => continue_ (loop + δ.scopes) (crossed.map (· + δ.scopes))

namespace Context

def shift (δ : Shift) (c : Context) : Context where
  toDeclarations := c.toDeclarations
  scopes := c.scopes.shift δ
  labels := c.labels + δ.labels
  pending := c.pending.map (LoopExit.shift δ)
  markers := c.markers + δ.markers

theorem alike_shift (c : Context) : (c.shift δ).Alike c where
  declarations := rfl
  find := c.scopes.find?_shift δ

theorem noteBreak_shift (c : Context) :
    (c.shift δ).noteBreak = c.noteBreak.map (Prod.map (· + δ.markers) (shift δ)) := by
  unfold noteBreak
  rw [show (c.shift δ).scopes = c.scopes.shift δ from rfl, ScopeStack.scopesToLoop_shift]
  cases c.scopes.scopesToLoop with
  | error e => rfl
  | ok found =>
    have hmarkers : c.markers + δ.markers + 1 = c.markers + 1 + δ.markers := by omega
    show Except.ok (_, ({ c.shift δ with
      markers := c.markers + δ.markers + 1
      pending := _ } : Context)) = Except.ok (_, shift δ _)
    simp only [shift, hmarkers, List.map_append]
    rfl

theorem noteContinue_shift (c : Context) :
    (c.shift δ).noteContinue = c.noteContinue.map (shift δ) := by
  unfold noteContinue
  rw [show (c.shift δ).scopes = c.scopes.shift δ from rfl, ScopeStack.scopesToLoop_shift]
  cases c.scopes.scopesToLoop with
  | error e => rfl
  | ok found =>
    show Except.ok ({ c.shift δ with pending := _ } : Context) = Except.ok (shift δ _)
    simp only [shift, List.map_append, List.map_cons, List.map_nil, LoopExit.shift,
      List.map_dropLast]

theorem crossedSize_shift {s : ScopeStack} {ids : List Nat}
    (h : ∀ id ∈ ids, id ∈ s.closed.map Prod.fst) :
    crossedSize (s.shift δ) (ids.map (· + δ.scopes)) = crossedSize s ids := by
  induction ids with
  | nil => rfl
  | cons id ids ih =>
    obtain ⟨hid, hids⟩ := List.forall_mem_cons.1 h
    rw [List.map_cons, crossedSize, crossedSize, ScopeStack.closedSize?_shift, ih hids]
    cases hsize : s.closedSize? id with
    | some size => rfl
    | none =>
      obtain ⟨q, hq, rfl⟩ := List.mem_map.1 hid
      simpa using List.lookup_eq_none_iff.1 hsize q hq

theorem fillings_shift {s : ScopeStack} {exits : List LoopExit}
    (h : ∀ e ∈ exits, ∀ id ∈ e.crossed, id ∈ s.closed.map Prod.fst) :
    fillings (s.shift δ) (exits.map (LoopExit.shift δ)) =
      (fillings s exits).map (List.map (Prod.map (· + δ.markers) id)) := by
  induction exits with
  | nil => rfl
  | cons e exits ih =>
    obtain ⟨he, hexits⟩ := List.forall_mem_cons.1 h
    have hsize : crossedSize (s.shift δ) (e.crossed.map (· + δ.scopes)) = crossedSize s e.crossed :=
      crossedSize_shift δ he
    cases e with
    | break_ loop m crossed =>
      rw [List.map_cons, LoopExit.shift, fillings, fillings, ih hexits,
        show crossedSize (s.shift δ) (crossed.map (· + δ.scopes)) =
          crossedSize s crossed from hsize]
      cases crossedSize s crossed with
      | error e => rfl
      | ok size => cases fillings s exits <;> rfl
    | continue_ loop crossed =>
      rw [List.map_cons, LoopExit.shift, fillings, fillings, ih hexits,
        show crossedSize (s.shift δ) (crossed.map (· + δ.scopes)) =
          crossedSize s crossed from hsize]
      cases crossedSize s crossed with
      | error e => rfl
      | ok size =>
        show (if 0 < size then _ else _) = Except.map _ (if 0 < size then _ else _)
        split <;> rfl

/-- **Settling exits does not notice a shift,** if the scopes that they leave are closed. -/
theorem settle_shift {c : Context} {loop : Nat} (h : ∀ e ∈ c.pending, e.loop = loop →
      ∀ id ∈ e.crossed, id ∈ c.scopes.closed.map Prod.fst) :
    (c.shift δ).settle (loop + δ.scopes) =
      (c.settle loop).map (Except.map (List.map (Prod.map (· + δ.markers) id))) (shift δ) := by
  have hloop : ∀ e : LoopExit, ((e.shift δ).loop == loop + δ.scopes) = (e.loop == loop) := by
    intro e
    rw [Bool.eq_iff_iff]
    cases e <;> simp [LoopExit.shift, LoopExit.loop]
  have hmine : ∀ e ∈ c.pending.filter (·.loop == loop), ∀ id ∈ e.crossed,
      id ∈ c.scopes.closed.map Prod.fst := by
    intro e he
    obtain ⟨he, heq⟩ := List.mem_filter.1 he
    exact h e he (beq_iff_eq.1 heq)
  have hfilter : (c.pending.map (LoopExit.shift δ)).filter (·.loop == loop + δ.scopes) =
      (c.pending.filter (·.loop == loop)).map (LoopExit.shift δ) := by
    rw [List.filter_map]
    exact congrArg _ (List.filter_congr fun e _ => hloop e)
  have hothers : (c.pending.map (LoopExit.shift δ)).filter (not ∘ (·.loop == loop + δ.scopes)) =
      (c.pending.filter (not ∘ (·.loop == loop))).map (LoopExit.shift δ) := by
    rw [List.filter_map]
    exact congrArg _ (List.filter_congr fun e _ => congrArg not (hloop e))
  simp only [settle, List.partition_eq_filter_filter, Prod.map]
  rw [show (c.shift δ).pending = c.pending.map (LoopExit.shift δ) from rfl, hfilter, hothers,
    show (c.shift δ).scopes = c.scopes.shift δ from rfl, fillings_shift δ hmine]
  rfl

end Context

def Generator.shift (δ : Shift) (g : Generator) : Generator :=
  { g with context := g.context.shift δ }

end GLang
