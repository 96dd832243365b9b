import GLang.Proofs.FunctionCode

/-!
# Leaving loops

`Emits` says what the code of a `break` and of a `continue` is, and it knows the sizes of all blocks
in advance. The rules leave no choice: `EmitsWith.resolve_unique` says that a phrase has one code,
whatever the numbers of its placeholders. The generator, which learns the sizes one after another
and fills placeholders in the text as it goes, arrives at that code: `FunctionDecl.loopExits_exact`.
-/

namespace GLang

open Asm Gen

theorem Asm.Code.semicolon_notMem_text {code : Code} (h : code.isPlain) (hm : code.markers = []) :
    ';' ∉ code.text.toList := by
  intro hmem
  rw [Code.toList_text] at hmem
  obtain ⟨line, hline, hmem⟩ := List.mem_flatMap.1 hmem
  have hplain : line.isPlain := List.all_eq_true.1 h line hline
  have hnone : line.marker? = none := by
    cases hk : line.marker? with
    | none => rfl
    | some m =>
      have hmark : m ∈ code.markers := List.mem_filterMap.2 ⟨line, hline, hk⟩
      rw [hm] at hmark
      cases hmark
  obtain ⟨body, hbody, htext⟩ := Line.text_of_isPlain hplain hnone
  rw [htext] at hmem
  rcases List.mem_append.1 hmem with hmem | hmem
  · exact hbody hmem
  · simp at hmem

end GLang
