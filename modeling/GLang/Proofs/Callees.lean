import GLang.Proofs.Skeleton
import GLang.Proofs.Symbols

/-!
# What a call calls

A call is compiled with the signature that the table of functions has for the name. The table goes
by the first declaration of a name, and so do the definitions that a listing holds. So the code that
stands under the name is that of the declaration from which the signature has been read.

* `Spells.sited`: every single call is one of a copy, or is compiled with a signature.
* `Listing.Defines`: the one definition of a name in a listing.
* `Generator.calls_resolved`: every call goes to an imported function or to such a definition.
-/

namespace GLang

open Asm Gen

/-! ### Calls -/

/-- **Every call in code that is spelled by events stands in its place.** -/
theorem Spells.sited {d : Declarations} {es : List Event} {code : Code} (h : Spells d es code) :
    code.Sited d := by
  induction h with
  | nil => exact .of_notMem fun f => List.not_mem_nil
  | @line l es code hl _ ih =>
    have hline : Code.Sited d [l] := .of_notMem fun f hf => by
      cases List.mem_singleton.1 hf
      cases hl
    exact hline.append ih
  | moves hm _ ih => exact (hm.sited d).append ih
  | @cleanup m es code _ ih =>
    have hline : Code.Sited d [.cleanup m] := .of_notMem fun f hf => by
      cases List.mem_singleton.1 hf
    exact hline.append ih
  | value hd he _ ih =>
    subst hd
    exact (Expr.straight_lower he).sited.append ih
  | run hd hc _ ih =>
    subst hd
    exact (Expr.straight_lowerCall hc).sited.append ih

/-! ### Definitions -/

theorem FunctionDecl.eq_name_of_gives {decl : FunctionDecl} {d : Declarations} {code : Code}
    (hw : decl.wellFormed) (h : decl.Gives d code) {f : String}
    (hf : .label (.named f) ∈ code) : f = decl.name := by
  obtain ⟨-, ls, hls, -, hlocal⟩ := labels_of_gives hw h
  have hlabel : Label.named f ∈ code.labels := List.mem_filterMap.2 ⟨_, hf, rfl⟩
  rw [hls] at hlabel
  rcases List.mem_cons.1 hlabel with heq | hmem
  · exact Label.named.inj heq
  · cases (hlocal _ hmem).1

/-- `decl`, whose signature is `s`, is the definition of `f` in a program, and its code is the
`k`-th function of the listing, the only one under the name `f`. -/
structure Asm.Listing.Defines (listing : Listing) (p : Program) (f : String) (s : FunctionSignature)
    (decl : FunctionDecl) (k : Nat) : Prop where
  item : .function decl ∈ p.items
  name : decl.name = f
  signature : decl.signature (Declarations.add {} p).1.structs false = .ok s
  code : ∃ code, listing.functions[k]? = some code ∧ code.head? = some (.label (.named f)) ∧
    decl.Gives (Declarations.add {} p).1 code
  unique : ∀ (j : Nat) (code : Code), listing.functions[j]? = some code →
    .label (.named f) ∈ code → j = k

namespace Generator

variable {source : String} {p : Program} {g : Generator} {listing : Listing}

theorem gives_of_getElem? (h : (g.generate p).1 = .ok listing) {k : Nat} {code : Code}
    (hcode : listing.functions[k]? = some code) :
    ∃ decl, (Item.definitions (Declarations.add {} p).1.functions [] p.items)[k]? = some decl ∧
      decl.Gives (Declarations.add {} p).1 code := by
  obtain ⟨-, -, hfunctions⟩ := generate_eq_ok h
  have hlt : k < listing.functions.length := (List.getElem?_eq_some_iff.1 hcode).1
  have hlt' : k < (Item.definitions (Declarations.add {} p).1.functions [] p.items).length := by
    rw [hfunctions.length_eq]
    exact hlt
  refine ⟨_, List.getElem?_eq_getElem hlt', ?_⟩
  have hgives := hfunctions.get hlt' hlt
  rw [List.getElem?_eq_getElem hlt] at hcode
  cases hcode
  simpa using hgives

/-- **A definition stands in the listing,** with its code, and no other function has its name. -/
theorem defines_of_mem_definitions (hp : Program.ofSource source = .ok p)
    (h : (g.generate p).1 = .ok listing) {decl : FunctionDecl} {s : FunctionSignature}
    (hmem : decl ∈ Item.definitions (Declarations.add {} p).1.functions [] p.items)
    (hsignature : decl.signature (Declarations.add {} p).1.structs false = .ok s) :
    ∃ k, listing.Defines p decl.name s decl k := by
  obtain ⟨k, hk⟩ := List.getElem?_of_mem hmem
  have hlt : k < (Item.definitions (Declarations.add {} p).1.functions [] p.items).length :=
    (List.getElem?_eq_some_iff.1 hk).1
  have hlt' : k < listing.functions.length := by
    rw [← (generate_eq_ok h).2.2.length_eq]
    exact hlt
  obtain ⟨decl', hk', hgives⟩ := gives_of_getElem? h (List.getElem?_eq_getElem hlt')
  cases hk.symm.trans hk'
  have hw := (Item.wellFormed_of_mem_definitions hp hmem).1
  refine ⟨k, (Item.mem_of_mem_definitions hmem).1, rfl, hsignature,
    ⟨_, List.getElem?_eq_getElem hlt', (FunctionDecl.labels_of_gives hw hgives).1, hgives⟩, ?_⟩
  intro j code hj hlabel
  obtain ⟨decl', hj', hgives'⟩ := gives_of_getElem? h hj
  have hw' := (Item.wellFormed_of_mem_definitions hp (List.mem_of_getElem? hj')).1
  have hname := FunctionDecl.eq_name_of_gives hw' hgives' hlabel
  -- Definitions differ in their names.
  have hnames : ((Item.definitions (Declarations.add {} p).1.functions [] p.items).map
      (·.name)).Nodup := Item.nodup_definitions p.items []
  have hj'' : j < (Item.definitions (Declarations.add {} p).1.functions [] p.items).length :=
    (List.getElem?_eq_some_iff.1 hj').1
  refine (List.getElem?_inj (by simpa using hj'') hnames).1 ?_
  rw [List.getElem?_map, List.getElem?_map, hj', hk, Option.map_some, Option.map_some, hname]

/-- **Every call of a program that compiles is resolved.** Each single call, with the code before
and after it, is that of a copy with `memcpy`, or it has been compiled as a call of a function that
the program declares, with the signature it declares for it. Such a function, be it `memcpy`, is
imported, or it is defined by the declaration from which that signature has been read. -/
theorem calls_resolved (hp : Program.ofSource source = .ok p)
    (h : (g.generate p).1 = .ok listing) {code : Code} (hcode : code ∈ listing.functions)
    {before after : Code} {f : String} (hf : code = before ++ .instr (.call f) :: after) :
    Code.CallSite (Declarations.add {} p).1 f before after ∧
    ∀ s, (Declarations.add {} p).1.functions.get f = .ok s →
      (s.external ∧ f ∈ listing.externs) ∨
      (s.external = false ∧ ∃ decl k, listing.Defines p f s decl k) := by
  constructor
  · obtain ⟨decl, hdecl, g₁, g₂, hd, hreturns⟩ :=
      (exists_mem_of_forall₂ (generate_eq_ok h).2.2).2 code hcode
    have hw := (Item.wellFormed_of_mem_definitions hp hdecl).1
    obtain ⟨es, -, hspells⟩ := FunctionDecl.spells_of_returns hw hreturns
    rw [hd] at hspells
    exact hspells.sited before f after hf
  · intro s hget
    rcases mem_externs_or_mem_definitions h (FunctionTable.find?_eq_some_of_get hget) with
      himported | ⟨hs, decl, hdecl, rfl, hsignature⟩
    · exact .inl himported
    · exact .inr ⟨hs, decl, defines_of_mem_definitions hp h hdecl hsignature⟩

/-- Two functions that call each other. -/
theorem calls_resolved_of_mutual : ∃ p listing, ∃ code before after : Code, ∃ s decl,
    Program.ofSource "extern fn abort();
      fn even(n: i32) -> i32 { if (n) { return odd(n - 1); } return 1; }
      fn odd(n: i32) -> i32 { if (n) { return even(n - 1); } abort(); return 0; }" = .ok p ∧
    (Generator.generate {} p).1 = .ok listing ∧ code ∈ listing.functions ∧
    code = before ++ .instr (.call "odd") :: after ∧
    Code.CallSite (Declarations.add {} p).1 "odd" before after ∧
    (Declarations.add {} p).1.functions.get "odd" = .ok s ∧ listing.Defines p "odd" s decl 1 := by
  obtain ⟨p, listing, hp, h, hcheck⟩ := exists_of_someListing
    "extern fn abort();
      fn even(n: i32) -> i32 { if (n) { return odd(n - 1); } return 1; }
      fn odd(n: i32) -> i32 { if (n) { return even(n - 1); } abort(); return 0; }"
    (fun listing => listing.externs == ["memcpy", "abort"] &&
      listing.functions.map (fun code => (code.contains (.instr (.call "odd")),
        code.contains (.label (.named "odd")))) == [(true, false), (false, true)])
    (by decide +kernel)
  obtain ⟨hexterns, hcodes⟩ := Bool.and_eq_true_iff.1 hcheck
  have hexterns := eq_of_beq hexterns
  obtain ⟨even, _, hfunctions, heven, hrest⟩ := List.map_eq_cons_iff.1 (eq_of_beq hcodes)
  obtain ⟨odd, rfl, hodd⟩ := List.map_eq_singleton_iff.1 hrest
  obtain ⟨before, after, hcall⟩ :=
    List.append_of_mem (List.contains_iff_mem.1 (Prod.mk.inj heven).1)
  have hlabel : .label (.named "odd") ∈ odd := List.contains_iff_mem.1 (Prod.mk.inj hodd).2
  obtain ⟨hsite, hresolved⟩ := calls_resolved hp h (by simp [hfunctions]) hcall
  obtain ⟨s, hget⟩ := hsite.declared.resolve_left (by decide)
  rcases hresolved s hget with ⟨-, himported⟩ | ⟨-, decl, k, hdefines⟩
  · simp [hexterns] at himported
  · obtain rfl := hdefines.unique 1 odd (by simp [hfunctions]) hlabel
    exact ⟨p, listing, even, before, after, s, decl, hp, h, by simp [hfunctions], hcall, hsite,
      hget, hdefines⟩

end Generator

end GLang
