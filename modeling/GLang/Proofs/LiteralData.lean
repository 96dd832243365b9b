import GLang.Proofs.LocalLabels
import GLang.Proofs.ScopeFaults

/-!
# String literals and their data

The literals of a program are gathered in one pass over the bodies of its functions and looked up in
another, when code is made. Both passes see the same literals.

* `LiteralPool.Numbers pool raws`: the pool numbers the texts of `raws` in the order in which they
  first occur.
* `Expr.pushes`, `Stmt.pushes`: the literals in the order in which code pushes them, and
  `Code.Pushes`: code that pushes the labels of such a list. `Expr.pushes_lower`: the code of an
  expression does.
* `Code.Writes`: the same, if the code has not been patched as text.
* `Gen.Compositional`: a property of code that survives when code is put together, so that the code
  of statements has it, `Gen.Composed.yields`. `Code.Writes` is one: `Stmt.compositional_writes`.
* `Generator.literals_resolved`: no literal is missed, and every one is pushed by the label under
  which its bytes stand in the data section.
-/

namespace GLang

open Asm Gen

/-! ### Numbers of literals -/

namespace LiteralPool

theorem texts_internAll (raws : List String) : ∀ pool : LiteralPool,
    (pool.internAll raws).texts =
      pool.texts ++ (raws.filter fun raw => !pool.texts.contains raw).eraseDups := by
  induction raws with
  | nil => simp [internAll]
  | cons raw raws ih =>
    intro pool
    rw [internAll, List.foldl_cons, ← internAll, ih]
    unfold intern
    split
    · rename_i hcontains
      rw [List.filter_cons_of_neg (by simpa using hcontains)]
    · rename_i hcontains
      have hfilter : (raws.filter fun raw' => !(pool.texts ++ [raw]).contains raw') =
          (raws.filter fun raw' => !pool.texts.contains raw').filter fun raw' => !raw' == raw := by
        rw [List.filter_filter]
        refine List.filter_congr fun raw' _ => ?_
        by_cases heq : raw' = raw <;> simp [heq]
      rw [List.filter_cons_of_pos (by simpa using hcontains), List.eraseDups_cons, hfilter,
        List.append_assoc]
      rfl

theorem nodup_internAll (raws : List String) : ∀ pool : LiteralPool, pool.texts.Nodup →
    (pool.internAll raws).texts.Nodup := by
  induction raws with
  | nil => exact fun _ h => h
  | cons raw raws ih =>
    intro pool h
    refine ih (pool.intern raw) ?_
    unfold intern
    split
    · exact h
    · rename_i hcontains
      refine List.nodup_append.2 ⟨h, List.nodup_singleton _, ?_⟩
      rintro _ hmem _ hraw rfl
      obtain rfl := List.mem_singleton.1 hraw
      exact hcontains (List.contains_iff_mem.2 hmem)

theorem label_eq_ok {pool : LiteralPool} (h : pool.texts.Nodup) {raw : String} {l : Label} :
    pool.label raw = .ok l ↔ ∃ k, l = .literal k ∧ pool.texts[k]? = some raw := by
  by_cases hmem : raw ∈ pool.texts
  · rw [label_of_mem hmem]
    constructor
    · intro heq
      cases heq
      exact ⟨_, rfl, List.getElem?_idxOf hmem⟩
    · rintro ⟨k, rfl, hk⟩
      obtain ⟨hlt, rfl⟩ := List.getElem?_eq_some_iff.1 hk
      rw [h.idxOf_getElem]
  · have hnone : pool.label raw = .error (.undefinedSymbol ("\"" ++ raw ++ "\"")) := by
      unfold label label?
      rw [List.idxOf?_eq_none_iff.2 hmem]
      rfl
    rw [hnone]
    constructor
    · intro heq
      cases heq
    · rintro ⟨k, -, hk⟩
      exact absurd (List.mem_of_getElem? hk) hmem

/-- A pool that numbers the texts of `raws` by their first occurrences. -/
structure Numbers (pool : LiteralPool) (raws : List String) : Prop where
  texts_eq : pool.texts = raws.eraseDups
  label_iff : ∀ raw l, pool.label raw = .ok l ↔ ∃ k, l = .literal k ∧ pool.texts[k]? = some raw
  /-- Only equal texts share a label. -/
  distinct : ∀ raw raw' l l', pool.label raw = .ok l → pool.label raw' = .ok l' →
    (l.text = l'.text ↔ raw = raw')

theorem numbers_internAll (raws : List String) : (internAll {} raws).Numbers raws := by
  have hnodup := nodup_internAll raws {} List.nodup_nil
  refine ⟨?_, fun raw l => label_eq_ok hnodup, ?_⟩
  · rw [texts_internAll]
    simp
  · intro raw raw' l l' hl hl'
    constructor
    · intro htext
      obtain ⟨k, rfl, hk⟩ := (label_eq_ok hnodup).1 hl
      obtain ⟨k', rfl, hk'⟩ := (label_eq_ok hnodup).1 hl'
      cases Label.text_injective rfl rfl htext
      exact Option.some.inj (hk.symm.trans hk')
    · rintro rfl
      rw [Except.ok.inj (hl.symm.trans hl')]

end LiteralPool

theorem Asm.Listing.dataLine_literal (raw : String) (k : Nat) :
    dataLine raw (.literal k) = s!"__str{k}: db {Literal.operands raw}\n" := by
  have hstring : ∀ s : String, toString s = s := fun _ => rfl
  have htext : (Label.literal k).text = s!"__str{k}" := rfl
  unfold dataLine
  rw [htext]
  simp only [hstring, String.append_assoc]

theorem exists_join_of_mem {α : Type} (f : α → String) {xs : List α} {x : α} (h : x ∈ xs) :
    ∃ before after, String.join (xs.map f) = before ++ f x ++ after := by
  obtain ⟨front, back, rfl⟩ := List.append_of_mem h
  refine ⟨String.join (front.map f), String.join (back.map f), ?_⟩
  rw [List.map_append, List.map_cons, String.join_append, String.join_cons, String.append_assoc]

/-- The line of a literal in the data section is part of the text of a listing. -/
theorem Asm.Listing.exists_dataLine {listing : Listing} {k : Nat} {raw : String}
    (h : listing.literals.texts[k]? = some raw) :
    ∃ before after, listing.text = before ++ dataLine raw (.literal k) ++ after := by
  have hentry : listing.literals.entries[k]? = some (raw, .literal k) := by
    simp [LiteralPool.entries, List.getElem?_zipIdx, h]
  obtain ⟨before, after, hdata⟩ := exists_join_of_mem
    (fun entry : String × Label => dataLine entry.1 entry.2) (List.mem_of_getElem? hentry)
  have htext : ∃ header rest, listing.text = header ++
      String.join (listing.literals.entries.map fun entry => dataLine entry.1 entry.2) ++ rest :=
    ⟨"BITS 32\nglobal main\nextern memcpy\n" ++
        String.join (listing.imports.map fun name => s!"extern {name}\n") ++ "section .data\n",
      "section .text\n" ++ String.join (listing.functions.map fun code => "\n" ++ code.text),
      String.append_assoc⟩
  obtain ⟨header, rest, htext⟩ := htext
  refine ⟨header ++ before, after ++ rest, ?_⟩
  rw [htext, hdata]
  simp only [String.append_assoc]

/-! ### What code pushes -/

/-- The label that a line pushes. -/
def Asm.Line.pushed? : Line → Option Label
  | .instr (.pushLabel l) => some l
  | _ => none

theorem Moves.pushed?_eq_none {is : List Instr} (h : Moves is) :
    ∀ i ∈ is, (Line.instr i).pushed? = none := by
  refine h.forall_mem (fun i hi => ?_) rfl
  cases i with
  | pushLabel => cases hi
  | _ => rfl

/-- The code pushes the labels that the pool has for `raws`, in this order, and no others. -/
def Asm.Code.Pushes (code : Code) (pool : LiteralPool) (raws : List String) : Prop :=
  (code.filterMap Line.pushed?).map .ok = raws.map pool.label

namespace Asm.Code.Pushes

variable {code code' : Code} {pool : LiteralPool} {raws raws' : List String}

theorem append (h : code.Pushes pool raws) (h' : code'.Pushes pool raws') :
    (code ++ code').Pushes pool (raws ++ raws') := by
  unfold Pushes at h h' ⊢
  rw [List.filterMap_append, List.map_append, List.map_append, h, h']

theorem of_none (h : ∀ line ∈ code, line.pushed? = none) : code.Pushes pool [] := by
  unfold Pushes
  rw [List.filterMap_eq_nil_iff.2 h]
  rfl

theorem of_moves {instrs : List Instr} (h : Moves instrs) : (ofInstrs instrs).Pushes pool [] :=
  of_none (List.forall_mem_map.2 h.pushed?_eq_none)

/-- Instructions that push no label are put behind or in front. -/
theorem appendQuiet {instrs quiet : List Instr} (h : (ofInstrs instrs).Pushes pool raws)
    (hquiet : (ofInstrs quiet).Pushes pool []) : (ofInstrs (instrs ++ quiet)).Pushes pool raws := by
  have happend := h.append hquiet
  rwa [List.append_nil, ← ofInstrs_append] at happend

theorem quietAppend {instrs quiet : List Instr} (hquiet : (ofInstrs quiet).Pushes pool [])
    (h : (ofInstrs instrs).Pushes pool raws) : (ofInstrs (quiet ++ instrs)).Pushes pool raws := by
  have happend := hquiet.append h
  rwa [List.nil_append, ← ofInstrs_append] at happend

end Asm.Code.Pushes

namespace Expr

mutual

/-- The string literals of an expression, in the order in which its code pushes them: arguments are
pushed last to first. -/
def pushes : Expr → List String
  | .str raw => [raw]
  | .deref e | .cast e _ | .negate e | .step _ _ e => e.pushes
  | .binary _ l r => l.pushes ++ r.pushes
  | .call _ args => argsPushes args
  | .int _ | .var _ | .addressOf _ => []

def argsPushes : List Expr → List String
  | [] => []
  | e :: rest => argsPushes rest ++ e.pushes

end

variable {ctx : Context}

theorem pushes_of_arraySymbol? {e : Expr} {symbol : Symbol} (h : e.arraySymbol? ctx = some symbol) :
    e.pushes = [] := by
  cases e with
  | var => rfl
  | _ => cases h

/-- The code of a call pushes what that of its arguments pushes. -/
theorem pushes_of_lowerCall {f : String} {args : List Expr} {keep : Bool} {code : List Instr}
    {raws : List String}
    (hargs : ∀ {instrs pushed}, lowerArgs ctx args = .ok (instrs, pushed) →
      (Code.ofInstrs instrs).Pushes ctx.literals raws)
    (h : lowerCall ctx f args keep = .ok code) :
    (Code.ofInstrs code).Pushes ctx.literals raws := by
  obtain ⟨signature, instrs, pushed, -, -, hinstrs, hkeep, rfl⟩ := lowerCall_eq_ok.1 h
  rw [callSequence_eq signature f instrs pushed hkeep]
  have hpass := (Code.Pushes.quietAppend (.of_moves signature.moves_makeRoom)
    (hargs hinstrs)).appendQuiet (.of_moves (signature.moves_passRoom pushed))
  have hcall : (Code.ofInstrs [.call f]).Pushes ctx.literals [] := rfl
  exact ((hpass.appendQuiet hcall).appendQuiet (.of_moves (moves_release _))).appendQuiet
    (.of_moves (signature.moves_settleResult keep))

mutual

/-- **What the code of an expression pushes.** -/
theorem pushes_lower : ∀ {e : Expr} {code : List Instr}, e.lower ctx = .ok code →
    (Code.ofInstrs code).Pushes ctx.literals e.pushes
  | .int n, code, h => by
    rw [lower_int.1 h]
    rfl
  | .str raw, code, h => by
    obtain ⟨l, hl, rfl⟩ := lower_str.1 h
    exact congrArg (fun l => [l]) hl.symm
  | .var x, code, h => by
    obtain ⟨s, -, rfl⟩ := lower_var.1 h
    exact .of_moves s.moves_pushCode
  | .addressOf x, code, h => by
    obtain ⟨s, -, rfl⟩ := lower_addressOf.1 h
    rfl
  | .deref e, code, h => by
    obtain ⟨t, -, ⟨s, hs, rfl⟩ | ⟨-, address, ha, rfl⟩⟩ := lower_deref.1 h
    · rw [pushes, pushes_of_arraySymbol? hs]
      exact .of_moves (.cons rfl (moves_pushIndirect t))
    · exact (pushes_lower ha).appendQuiet
        (.of_moves (.cons rfl (moves_pushIndirect t)))
  | .cast e target, code, h => by
    rw [pushes]
    exact pushes_lower (lower_cast.1 h)
  | .binary op l r, code, h => by
    obtain ⟨left, right, hl, hr, rfl⟩ := lower_binary.1 h
    refine Code.Pushes.appendQuiet ?_ (.of_moves op.moves_code)
    rw [Code.ofInstrs_append]
    exact (pushes_lower hl).append (pushes_lower hr)
  | .negate e, code, h => absurd h lower_negate
  | .step op .before e, code, h => by
    obtain ⟨step, value, hs, hv, rfl⟩ := lower_stepBefore.1 h
    obtain ⟨x, s, -, -, -, rfl⟩ := stepCode_eq_ok.1 hs
    rw [pushes]
    exact .quietAppend (.of_moves (s.moves_stepCode op)) (pushes_lower hv)
  | .step op .after e, code, h => by
    obtain ⟨value, step, hv, hs, rfl⟩ := lower_stepAfter.1 h
    obtain ⟨x, s, -, -, -, rfl⟩ := stepCode_eq_ok.1 hs
    exact (pushes_lower hv).appendQuiet (.of_moves (s.moves_stepCode op))
  | .call f args, code, h =>
    pushes_of_lowerCall (fun hargs => pushes_lowerArgs hargs) (lower_call.1 h)

theorem pushes_lowerArgs : ∀ {args : List Expr} {code : List Instr} {pushed : Nat},
    lowerArgs ctx args = .ok (code, pushed) →
    (Code.ofInstrs code).Pushes ctx.literals (argsPushes args)
  | [], code, pushed, h => by
    rw [(lowerArgs_nil.1 h).1]
    rfl
  | e :: rest, code, pushed, h => by
    obtain ⟨more, n, value, size, hm, hv, -, rfl, -⟩ := lowerArgs_cons.1 h
    rw [Code.ofInstrs_append]
    exact (pushes_lowerArgs hm).append (pushes_lower hv)

end

theorem pushes_lowerCall {f : String} {args : List Expr} {keep : Bool} {code : List Instr}
    (h : lowerCall ctx f args keep = .ok code) :
    (Code.ofInstrs code).Pushes ctx.literals (argsPushes args) :=
  pushes_of_lowerCall pushes_lowerArgs h

end Expr

/-! ### Code that may have been patched -/

/-- The code pushes the labels of `raws`, unless its placeholders have been filled as text. -/
def Asm.Code.Writes (code : Code) (pool : LiteralPool) (raws : List String) : Prop :=
  (∃ text, .verbatim text ∈ code) ∨ code.Pushes pool raws

namespace Asm.Code.Writes

variable {code code' : Code} {pool : LiteralPool} {raws raws' : List String}

theorem append (h : code.Writes pool raws) (h' : code'.Writes pool raws') :
    (code ++ code').Writes pool (raws ++ raws') := by
  rcases h with ⟨text, h⟩ | h
  · exact .inl ⟨text, List.mem_append_left _ h⟩
  · rcases h' with ⟨text, h'⟩ | h'
    · exact .inl ⟨text, List.mem_append_right _ h'⟩
    · exact .inr (h.append h')

theorem of_none (h : ∀ line ∈ code, line.pushed? = none) : code.Writes pool [] :=
  .inr (.of_none h)

theorem of_moves {instrs : List Instr} (h : Moves instrs) : (ofInstrs instrs).Writes pool [] :=
  .inr (.of_moves h)

theorem label (l : Label) : Writes [.label l] pool [] :=
  of_none (List.forall_mem_singleton.2 rfl)

theorem of_isOwn (h : code.isOwn) : code.Writes pool [] := by
  refine of_none fun line hline => ?_
  have hown := List.all_eq_true.1 h line hline
  cases line with
  | instr i =>
    cases i with
    | pushLabel => cases hown
    | _ => rfl
  | _ => rfl

/-- Lines that push nothing are put behind or in front. -/
theorem appendNone (h : code.Writes pool raws) (h' : code'.Writes pool []) :
    (code ++ code').Writes pool raws := by
  have happend := h.append h'
  rwa [List.append_nil] at happend

theorem noneAppend (h : code.Writes pool []) (h' : code'.Writes pool raws) :
    (code ++ code').Writes pool raws :=
  h.append h'

theorem pushed_fillLine (marker size : Nat) (code : Code) :
    (code.fillLine marker size).filterMap Line.pushed? = code.filterMap Line.pushed? := by
  induction code with
  | nil => rfl
  | cons line code ih =>
    cases line with
    | cleanup m =>
      have hrelease : (ofInstrs (release size)).filterMap Line.pushed? = [] :=
        List.filterMap_eq_nil_iff.2 (List.forall_mem_map.2 (moves_release size).pushed?_eq_none)
      rw [fillLine]
      split
      · rw [List.filterMap_append, hrelease]
        rfl
      · exact ih
    | label | instr | verbatim =>
      rw [fillLine, List.filterMap_cons, List.filterMap_cons, ih]
      all_goals simp

/-- Filling placeholders adds no push. -/
theorem fillAll (h : code.Writes pool raws) (fillings : List (Nat × Nat)) :
    (code.fillAll fillings).Writes pool raws := by
  induction fillings generalizing code with
  | nil => exact h
  | cons filling fillings ih =>
    refine ih ?_
    show (code.fill filling.1 filling.2).Writes pool raws
    unfold fill
    split
    · rename_i hplain
      rcases h with ⟨text, h⟩ | h
      · exact absurd (List.all_eq_true.1 hplain _ h) (by simp [Line.isPlain])
      · right
        unfold Pushes at h ⊢
        rw [pushed_fillLine, h]
    · exact .inl ⟨_, List.mem_singleton_self _⟩

end Asm.Code.Writes

/-! ### Runs -/

namespace Gen

/-- If `p` returns, in a program with the declarations `d`, then what it returns has the property
`Q`. -/
def Yields {α : Type} (d : Declarations) (p : Gen α) (Q : α → Prop) : Prop :=
  ∀ (g : Generator) (a : α) (g' : Generator), g.context.toDeclarations = d → Returns p g a g' →
    g'.context.toDeclarations = d ∧ Q a

variable {α β : Type} {d : Declarations} {Q : α → Prop} {R : β → Prop}

theorem yields_pure {a : α} (h : Q a) : Yields d (pure a) Q := by
  intro g a' g' hd hr
  obtain ⟨rfl, rfl⟩ := returns_pure.1 hr
  exact ⟨hd, h⟩

theorem yields_throw (e : LoweringError) : Yields d (throw e) Q :=
  fun _ _ _ _ hr => absurd hr not_returns_throw

theorem yields_bind {p : Gen α} {f : α → Gen β} (hp : Yields d p Q)
    (hf : ∀ a, Q a → Yields d (f a) R) : Yields d (p >>= f) R := by
  intro g b g' hd hr
  obtain ⟨a, g₁, ha, hb⟩ := returns_bind.1 hr
  obtain ⟨hd₁, hQ⟩ := hp g a g₁ hd ha
  exact hf a hQ g₁ b g' hd₁ hb

theorem Yields.mono {p : Gen α} {Q' : α → Prop} (hp : Yields d p Q) (h : ∀ a, Q a → Q' a) :
    Yields d p Q' := by
  intro g a g' hd hr
  obtain ⟨hd₁, hQ⟩ := hp g a g' hd hr
  exact ⟨hd₁, h a hQ⟩

/-- What does not change the declarations may return anything. -/
theorem yields_of_preserves {p : Gen α} (h : Preserves (·.toDeclarations = d) p) :
    Yields d p fun _ => True :=
  fun _ _ _ hd hr => ⟨h.returns hr hd, trivial⟩

theorem yields_ask {f : Context → Except LoweringError α}
    (h : ∀ ctx a, ctx.toDeclarations = d → f ctx = .ok a → Q a) : Yields d (ask f) Q := by
  intro g a g' hd hr
  obtain ⟨ha, rfl⟩ := returns_ask.1 hr
  exact ⟨hd, h _ a hd ha⟩

theorem yields_settle {Q : Code → Prop} (loop : Nat) {code : Code}
    (h : ∀ fillings, Q (code.fillAll fillings)) : Yields d (settle loop code) Q := by
  intro g code' g' hd hr
  obtain ⟨fillings, -, rfl, rfl⟩ := returns_settle.1 hr
  exact ⟨hd, h fillings⟩

theorem yields_openScope (kind : ScopeKind) (labels : Option LoopLabels) :
    Yields d (openScope kind labels) fun _ => True :=
  yields_of_preserves (preserves_openScope (Context.stable_declarations d) kind labels)

theorem yields_closeScope (kind : ScopeKind) : Yields d (closeScope kind) fun _ => True :=
  yields_of_preserves (preserves_closeScope (Context.stable_declarations d) kind)

theorem yields_resultCode : Yields d Stmt.resultCode Moves := by
  intro g instrs g' hd hr
  obtain ⟨hcode, rfl⟩ := Stmt.returns_resultCode.1 hr
  exact ⟨hd, Context.moves_returnCode hcode⟩

/-- A property of code, and of the parts that it is the code of, that survives when code is put
together. -/
structure Compositional (d : Declarations) (Q : List (String ⊕ Expr) → Code → Prop) : Prop where
  own : ∀ {code : Code}, code.isOwn → Q [] code
  exit : ∀ (marker : Nat) (l : Label), Q [] [.cleanup marker, .instr (.jump l)]
  jump : ∀ l : Label, Q [] [.instr (.jump l)]
  append : ∀ {parts parts' code code'}, Q parts code → Q parts' code' →
    Q (parts ++ parts') (code ++ code')
  fill : ∀ {parts code} (fillings : List (Nat × Nat)), Q parts code →
    Q parts (code.fillAll fillings)
  value : ∀ {ctx : Context} {e : Expr} {instrs : List Instr}, ctx.toDeclarations = d →
    e.lower ctx = .ok instrs → Q [.inr e] (Code.ofInstrs instrs)
  call : ∀ {ctx : Context} {name : String} {args : List Expr} {instrs : List Instr},
    ctx.toDeclarations = d → Expr.lowerCall ctx name args false = .ok instrs →
    Q [.inr (.call name args)] (Code.ofInstrs instrs)
  type : ∀ {ctx : Context} {descriptor : String} {t : Ty}, ctx.toDeclarations = d →
    ctx.typeOf descriptor = .ok t → Q [.inl descriptor] []
  address : ∀ {ctx : Context} {e : Expr} {t : Ty} {instrs : List Instr}, ctx.toDeclarations = d →
    e.readType ctx = .ok t → e.lower ctx = .ok instrs → Q [.inr (.deref e)] (Code.ofInstrs instrs)
  lookup : ∀ x : String, Q [.inr (.var x)] []

/-- **Code has the properties that putting it together keeps.** -/
theorem Composed.yields {Q : List (String ⊕ Expr) → Code → Prop} (hQ : Compositional d Q)
    {δ : LabelCounters} {f : String → String} {parts : List (String ⊕ Expr)} {stray : Bool}
    {new : List String} {p q : Gen Code} (h : Composed δ f parts stray new p q) :
    Yields d p (Q parts) := by
  have hstable := Context.stable_declarations d
  induction h with
  | own h => exact yields_pure (hQ.own h)
  | fail => exact yields_throw _
  | seq _ _ ih ih' =>
    exact yields_bind ih fun _ h => yields_bind ih' fun _ h' => yields_pure (hQ.append h h')
  | value e =>
    intro g code g' hd hr
    obtain ⟨instrs, he, rfl, rfl⟩ := returns_evaluate.1 hr
    exact ⟨hd, hQ.value hd he⟩
  | call name args =>
    rw [Stmt.lower]
    exact yields_bind (yields_ask fun _ _ hd hcall => hQ.call hd hcall) fun _ h => yields_pure h
  | type descriptor _ ih =>
    refine yields_bind (yields_ask fun _ _ hd ht => hQ.type hd ht) fun t ht => ?_
    exact (ih t).mono fun code hcode => hQ.append ht hcode
  | address e _ ih =>
    intro g code g' hd hr
    obtain ⟨t, g₁, ht, hseq⟩ := returns_bind.1 hr
    obtain ⟨ht, rfl⟩ := returns_ask.1 ht
    obtain ⟨_, g₂, more, heval, hk, rfl⟩ := returns_seq.1 hseq
    obtain ⟨instrs, he, rfl, rfl⟩ := returns_evaluate.1 heval
    obtain ⟨hd', hmore⟩ := ih t g₂ more g' hd hk
    exact ⟨hd', hQ.append (hQ.address hd ht he) hmore⟩
  | lookup x _ ih =>
    refine yields_bind (yields_of_preserves (preserves_lookup x)) fun symbol _ => ?_
    exact (ih symbol).mono fun code hcode => hQ.append (hQ.lookup x) hcode
  | declare x t _ ih =>
    exact yields_bind (yields_of_preserves (preserves_declare hstable x t)) fun symbol _ =>
      ih symbol
  | result => exact yields_bind yields_resultCode fun _ h => yields_pure (hQ.own h.isOwn)
  | label kind _ ih =>
    exact yields_bind (yields_of_preserves (preserves_freshLabel hstable kind)) fun n _ => ih n
  | block _ ih =>
    refine yields_bind (yields_openScope _ _) fun _ _ => yields_bind ih fun code hcode =>
      yields_bind (yields_closeScope _) fun size _ => yields_pure ?_
    have hblock := hQ.append (hQ.append (hQ.own (moves_reserve size).isOwn) hcode)
      (hQ.own (moves_release size).isOwn)
    rwa [List.nil_append, List.append_nil] at hblock
  | loop kind labels done _ _ hbreak hdone _ ih =>
    refine yields_bind (yields_openScope _ _) fun id _ => yields_bind ih fun code hcode =>
      yields_bind (yields_closeScope _) fun size _ =>
      yields_bind (yields_settle id fun fillings => hQ.fill fillings hcode) fun code hcode =>
      yields_pure ?_
    have hloop := hQ.append (hQ.append (hQ.append (hQ.append (hQ.own (moves_reserve size).isOwn)
      hcode) (hQ.own (Code.isOwn_label hdone))) (hQ.own (moves_release size).isOwn))
      (hQ.own (Code.isOwn_label hbreak))
    simpa only [List.nil_append, List.append_nil] using hloop
  | breakLoop =>
    rw [Stmt.lower]
    exact yields_bind (yields_of_preserves (preserves_noteBreak hstable)) fun marker _ =>
      yields_bind (yields_of_preserves (preserves_ask _)) fun labels _ =>
      yields_pure (hQ.exit marker labels.breakTo)
  | continueLoop =>
    rw [Stmt.lower]
    exact yields_bind (yields_of_preserves (preserves_noteContinue hstable)) fun _ _ =>
      yields_bind (yields_of_preserves (preserves_ask _)) fun labels _ =>
      yields_pure (hQ.jump labels.continueTo)

end Gen

/-! ### Statements and functions -/

namespace Stmt

mutual

/-- The string literals of a statement, in the order in which its code pushes them. The last clause
of a `for` loop comes after the body. -/
def pushes : Stmt → List String
  | .declare _ _ init => init.elim [] Expr.pushes
  | .assign _ e | .store _ e | .run e => e.pushes
  | .storeAt a e => a.pushes ++ e.pushes
  | .branch first others otherwise => armPushes first ++ armsPushes others ++ elsePushes otherwise
  | .whileLoop condition body => condition.pushes ++ blockPushes body
  | .forLoop init condition increment body =>
    clausePushes init ++ condition.elim [] Expr.pushes ++ blockPushes body ++
      clausePushes increment
  | .ret value => value.elim [] Expr.pushes
  | .step _ _ | .breakLoop | .continueLoop => []

def blockPushes : List Stmt → List String
  | [] => []
  | s :: rest => s.pushes ++ blockPushes rest

def armPushes : Arm → List String
  | .mk condition body => condition.pushes ++ blockPushes body

def armsPushes : List Arm → List String
  | [] => []
  | arm :: rest => armPushes arm ++ armsPushes rest

def elsePushes : Option (List Stmt) → List String
  | none => []
  | some body => blockPushes body

def clausePushes : Option Stmt → List String
  | none => []
  | some s => s.pushes

end

/-- What the code of a descriptor or an expression pushes. -/
def pushed : String ⊕ Expr → List String :=
  Sum.elim (fun _ => []) Expr.pushes

mutual

theorem pushes_eq : ∀ s : Stmt, s.pushes = s.parts.flatMap pushed
  | .declare _ _ init | .ret init => by cases init <;> simp [pushes, parts, pushed]
  | .assign _ _ | .store _ _ | .storeAt _ _ | .step _ _ | .run _ | .breakLoop | .continueLoop => by
    simp [pushes, parts, pushed, Expr.pushes]
  | .branch first others otherwise => by
    simp [pushes, parts, armPushes_eq first, armsPushes_eq others, elsePushes_eq otherwise]
  | .whileLoop condition body => by simp [pushes, parts, pushed, blockPushes_eq body]
  | .forLoop init condition increment body => by
    cases condition <;> simp [pushes, parts, pushed, clausePushes_eq init,
      clausePushes_eq increment, blockPushes_eq body]

theorem blockPushes_eq : ∀ body : List Stmt, blockPushes body = (blockParts body).flatMap pushed
  | [] => rfl
  | s :: rest => by simp [blockPushes, blockParts, pushes_eq s, blockPushes_eq rest]

theorem armPushes_eq : ∀ arm : Arm, armPushes arm = (armParts arm).flatMap pushed
  | .mk condition body => by simp [armPushes, armParts, pushed, blockPushes_eq body]

theorem armsPushes_eq : ∀ arms : List Arm, armsPushes arms = (armsParts arms).flatMap pushed
  | [] => rfl
  | arm :: rest => by simp [armsPushes, armsParts, armPushes_eq arm, armsPushes_eq rest]

theorem elsePushes_eq : ∀ otherwise : Option (List Stmt),
    elsePushes otherwise = (elseParts otherwise).flatMap pushed
  | none => rfl
  | some body => blockPushes_eq body

theorem clausePushes_eq : ∀ clause : Option Stmt,
    clausePushes clause = (clauseParts clause).flatMap pushed
  | none => rfl
  | some s => pushes_eq s

end

/-- The code of parts pushes what they push. -/
theorem compositional_writes (d : Declarations) :
    Compositional d fun parts code => code.Writes d.literals (parts.flatMap pushed) where
  own h := .of_isOwn h
  exit _ _ := .of_none (by simp [Line.pushed?])
  jump _ := .of_none (by simp [Line.pushed?])
  append h h' := by
    rw [List.flatMap_append]
    exact h.append h'
  fill fillings h := h.fillAll fillings
  value hd he := by
    rw [← hd, List.flatMap_singleton]
    exact .inr (Expr.pushes_lower he)
  call hd hcall := by
    rw [← hd, List.flatMap_singleton]
    exact .inr (Expr.pushes_lowerCall hcall)
  type _ _ := .of_none (by simp)
  address {_ e _ _} hd _ he := by
    rw [← hd, List.flatMap_singleton]
    exact .inr (Expr.pushes_lower (e := e) he)
  lookup _ := .of_none (by simp)

end Stmt

namespace FunctionDecl

variable {d : Declarations}

/-- What the code of its body yields is yielded in the frame of a function. -/
theorem yields_frame (decl : FunctionDecl) {Q : Code → Prop}
    (h : Yields d (Stmt.lowerAll decl.body) Q) :
    Yields d decl.lower fun code =>
      ∃ frame body, code = frameCode decl.name frame body ∧ Q body := by
  refine yields_bind (yields_of_preserves fun _ hd => ⟨hd, rfl⟩) fun _ _ =>
    yields_bind (yields_of_preserves (preserves_ask _)) fun signature _ => ?_
  split
  · exact yields_bind (Q := fun _ => False) (yields_throw _) fun _ => False.elim
  · exact yields_bind (yields_of_preserves fun _ hd => ⟨hd, rfl⟩) fun _ _ =>
      yields_bind (yields_openScope _ _) fun _ _ =>
      yields_bind (yields_of_preserves
        (preserves_declareParams (Context.stable_declarations d) _)) fun _ _ =>
      yields_bind (yields_openScope _ _) fun _ _ => yields_bind h fun body hbody =>
      yields_bind (yields_closeScope _) fun frame _ =>
      yields_bind (yields_closeScope _) fun _ _ => yields_pure ⟨frame, body, rfl, hbody⟩

/-- **What the code of a function pushes.** -/
theorem writes_of_gives {decl : FunctionDecl} {code : Code} (h : decl.Gives d code) :
    code.Writes d.literals (Stmt.blockPushes decl.body) := by
  obtain ⟨g, g', hd, hreturns⟩ := h
  have hyields := (Stmt.composed_lowerAll (δ := {}) (f := id) decl.body).yields
    (Stmt.compositional_writes d)
  rw [← Stmt.blockPushes_eq] at hyields
  obtain ⟨frame, body, rfl, hbody⟩ := (decl.yields_frame hyields g code g' hd hreturns).2
  have hprologue : (Code.ofInstrs ([Instr.pushReg .ebp, .move .ebp .esp] ++ reserve frame)).Writes
      d.literals [] := .of_moves (.append (.of_isMove (by simp)) (moves_reserve frame))
  have hstart := (Code.Writes.label (.named decl.name)).append hprologue
  exact ((Code.Writes.noneAppend hstart hbody).appendNone (.label _)).appendNone
    (.of_moves (.of_isMove (by simp)))

end FunctionDecl

/-! ### Programs -/

namespace Generator

theorem literals_eq {g : Generator} {p : Program} {listing : Listing}
    (h : (g.generate p).1 = .ok listing) :
    listing.literals = (Declarations.add {} p).1.literals := by
  have hdeclarations := toDeclarations_functions p.items (g.start p).1 []
  unfold generate at h
  simp only at h
  split at h
  · cases h
    exact congrArg (·.literals) hdeclarations
  · cases h

/-- **String literals name their own data.** The literals of a program are numbered in the order in
which they first occur in it. None is missing when it is looked up, so a symbol that is not found is
a variable. The code of an expression or a call pushes the labels of its literals, and so does the
code of a function, which in a program that has been read is never patched as text. The bytes of
each literal stand in the data section under its label. -/
theorem literals_resolved (g : Generator) (p : Program) :
    (Declarations.add {} p).1.literals.Numbers p.strings ∧
    (∀ decl, .function decl ∈ p.items → ∀ raw ∈ Stmt.blockStrings decl.body,
      ∃ k, (Declarations.add {} p).1.literals.label raw = .ok (.literal k)) ∧
    (∀ ds, (g.generate p).1 = .error ds → ∀ context x, ⟨context, .undefinedSymbol x⟩ ∈ ds →
      ∃ decl ∈ Item.definitions (Declarations.add {} p).1.functions [] p.items,
        decl.name = context ∧ x ∈ resultSlot :: Stmt.blockMentions decl.body) ∧
    (∀ ctx : Context, ctx.toDeclarations = (Declarations.add {} p).1 →
      (∀ e instrs, Expr.lower ctx e = .ok instrs →
        (Code.ofInstrs instrs).Pushes (Declarations.add {} p).1.literals e.pushes) ∧
      ∀ f args keep instrs, Expr.lowerCall ctx f args keep = .ok instrs →
        (Code.ofInstrs instrs).Pushes (Declarations.add {} p).1.literals
          (Expr.argsPushes args)) ∧
    ∀ listing, (g.generate p).1 = .ok listing →
      listing.literals = (Declarations.add {} p).1.literals ∧
      (∀ (k : Nat) raw, listing.literals.texts[k]? = some raw → ∃ before after,
        listing.text = before ++ s!"__str{k}: db {Literal.operands raw}\n" ++ after) ∧
      List.Forall₂ (fun decl code => code.Writes listing.literals (Stmt.blockPushes decl.body))
        (Item.definitions (Declarations.add {} p).1.functions [] p.items) listing.functions ∧
      ∀ source, Program.ofSource source = .ok p →
        ∀ code ∈ listing.functions, ∀ text, .verbatim text ∉ code := by
  have hnumbers : (Declarations.add {} p).1.literals.Numbers p.strings :=
    LiteralPool.numbers_internAll p.strings
  refine ⟨hnumbers, ?_, ?_, ?_, ?_⟩
  · intro decl hdecl raw hraw
    exact ⟨_, LiteralPool.label_of_mem (Declarations.blockStrings_subset hdecl {} hraw)⟩
  · intro ds h context x hmem
    rcases concerns_of_generate h hmem with hnone | ⟨decl, hdecl, hname, hx⟩
    · exact absurd hnone List.not_mem_nil
    · exact ⟨decl, hdecl, hname, hx⟩
  · intro ctx hctx
    rw [← hctx]
    exact ⟨fun e instrs => Expr.pushes_lower, fun f args keep instrs => Expr.pushes_lowerCall⟩
  · intro listing h
    obtain ⟨-, -, hfunctions⟩ := generate_eq_ok h
    have hliterals := literals_eq h
    refine ⟨hliterals, ?_, ?_, ?_⟩
    · intro k raw hk
      rw [← Listing.dataLine_literal]
      exact Listing.exists_dataLine hk
    · rw [hliterals]
      exact hfunctions.imp fun _ _ => FunctionDecl.writes_of_gives
    · intro source hp code hcode text hverbatim
      obtain ⟨decl, hdecl, hgives⟩ := (exists_mem_of_forall₂ hfunctions).2 code hcode
      obtain ⟨hw, hname⟩ := Item.wellFormed_of_mem_definitions hp hdecl
      have hlines := (FunctionDecl.wellLabelled_of_gives hw hname hgives).1.lines
      rcases hlines _ hverbatim with ⟨l, hl⟩ | ⟨i, hi⟩
      · cases hl
      · cases hi

/-- A loop whose last clause stands before its body in the source and after it in the code. -/
theorem literals_resolved_of_loop : ∃ p listing, ∃ code : Code, ∃ decl,
    Program.ofSource r#"extern fn f(a: u8*, b: u8*) -> i32;
      fn main() { var x: i32 = f("a", "b");
      for (; f("c", "a"); x = f("d", "b")) { f("e", "c"); } }"# = .ok p ∧
    (Generator.generate {} p).1 = .ok listing ∧ listing.functions = [code] ∧
    .function decl ∈ p.items ∧ listing.literals.texts = ["a", "b", "c", "d", "e"] ∧
    listing.literals.Numbers p.strings ∧
    code.Pushes listing.literals (Stmt.blockPushes decl.body) ∧
    code.filterMap Line.pushed? = [.literal 1, .literal 0, .literal 0, .literal 2, .literal 2,
      .literal 4, .literal 1, .literal 3] := by
  obtain ⟨p, listing, hp, h, hcheck⟩ := exists_of_someListing
    r#"extern fn f(a: u8*, b: u8*) -> i32;
      fn main() { var x: i32 = f("a", "b");
      for (; f("c", "a"); x = f("d", "b")) { f("e", "c"); } }"#
    (fun listing => listing.literals.texts == ["a", "b", "c", "d", "e"] &&
      listing.functions.map (·.filterMap Line.pushed?) == [[.literal 1, .literal 0, .literal 0,
        .literal 2, .literal 2, .literal 4, .literal 1, .literal 3]])
    (by decide +kernel)
  obtain ⟨htexts, hpushed⟩ := Bool.and_eq_true_iff.1 hcheck
  obtain ⟨code, hcode, hpushed⟩ := List.map_eq_singleton_iff.1 (eq_of_beq hpushed)
  obtain ⟨hnumbers, -, -, -, haccepted⟩ := literals_resolved {} p
  obtain ⟨hliterals, -, hwrites, hread⟩ := haccepted listing h
  have hmem : code ∈ listing.functions := hcode ▸ List.mem_singleton_self code
  obtain ⟨decl, hdecl, hwrites⟩ := (exists_mem_of_forall₂ hwrites).2 code hmem
  have hpushes := hwrites.resolve_left (not_exists.2 (hread _ hp code hmem))
  exact ⟨p, listing, code, decl, hp, h, hcode, (Item.mem_of_mem_definitions hdecl).1,
    eq_of_beq htexts, hliterals ▸ hnumbers, hpushes, hpushed⟩

end Generator

end GLang
