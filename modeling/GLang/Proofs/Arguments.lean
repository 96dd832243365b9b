import GLang.Command.Options
import GLang.Proofs.Generation

/-!
# What is given on a command line

The options can be spelled in several ways, in any order. This is a grammar of these spellings, and
what it means that a reader of arguments follows it.

* `Setting`: what can be given, and `Spelled`: how it is written as a list of arguments.
* `Given`: a list of arguments gives a setting.
* `Follows`: from a list that it takes, a reader reads the settings that are given there.
* `follows_ofArgs`: so does `Options.ofArgs`. `exists_spelled` finds the settings of a list that it
  takes, and `gains_of_spelled` says that those of any spelling have been read.
-/

namespace GLang.Command

/-! ### Spellings -/

inductive Setting where
  | input (path : String)
  | output (path : String)
  | lexOnly
  | parseOnly
  deriving DecidableEq, Repr

/-- An argument that stands for itself: it does not look like an option. A single hyphen does
not. -/
def IsValue (argument : String) : Prop :=
  ∀ c cs, argument.toList ≠ '-' :: c :: cs

/-- The letter `v`, so many times, after a hyphen. Other letters may follow it. -/
def letters (n : Nat) : String :=
  "-" ++ String.ofList (List.replicate n 'v')

/-- The ways to name the output file. -/
inductive NamesOutput (path : String) : List String → Prop where
  | word (h : IsValue path) : NamesOutput path ["--output", path]
  | wordEq : NamesOutput path ["--output=" ++ path]
  | letter (n : Nat) (h : IsValue path) : NamesOutput path [letters n ++ "o", path]
  | letterEq (n : Nat) : NamesOutput path [letters n ++ "o=" ++ path]
  | attached (n : Nat) (h : path.toList ≠ []) (heq : path.toList.head? ≠ some '=') :
    NamesOutput path [letters n ++ "o" ++ path]

/-- A list of arguments, and the settings that are written there. -/
inductive Spelled : List String → List Setting → Prop where
  | nil : Spelled [] []
  | input {path : String} {rest : List String} {settings : List Setting} (h : IsValue path)
    (hrest : Spelled rest settings) : Spelled (path :: rest) (.input path :: settings)
  | output {path : String} {used rest : List String} {settings : List Setting}
    (h : NamesOutput path used) (hrest : Spelled rest settings) :
    Spelled (used ++ rest) (.output path :: settings)
  | lexOnly {rest : List String} {settings : List Setting} (hrest : Spelled rest settings) :
    Spelled ("--lex-only" :: rest) (.lexOnly :: settings)
  | parseOnly {rest : List String} {settings : List Setting} (hrest : Spelled rest settings) :
    Spelled ("--parse-only" :: rest) (.parseOnly :: settings)
  | verbose {rest : List String} {settings : List Setting} (hrest : Spelled rest settings) :
    Spelled ("--verbose" :: rest) settings
  | letters (n : Nat) {rest : List String} {settings : List Setting}
    (hrest : Spelled rest settings) :
    Spelled (letters (n + 1) :: rest) settings
  | ended (paths : List String) : Spelled ("--" :: paths) (paths.map .input)

/-- The arguments give a setting. -/
def Given (args : List String) (setting : Setting) : Prop :=
  ∃ settings, Spelled args settings ∧ setting ∈ settings

/-- A reader takes from the arguments what is given there. -/
structure Follows (reader : List String → Except Refusal Options) : Prop where
  input : ∀ {args o}, reader args = .ok o → ∀ path, Given args (.input path) ↔ o.input = path
  output : ∀ {args o}, reader args = .ok o →
    ∀ path, Given args (.output path) ↔ o.output = some path
  lexOnly : ∀ {args o}, reader args = .ok o → (Given args .lexOnly ↔ o.lexOnly = true)
  parseOnly : ∀ {args o}, reader args = .ok o → (Given args .parseOnly ↔ o.parseOnly = true)

/-! ### What has been read -/

namespace Draft

variable {d d₁ d' : Draft} {argument path : String} {settings more : List Setting}

/-- `d'` is `d` with the settings read in addition. -/
structure Gains (d : Draft) (settings : List Setting) (d' : Draft) : Prop where
  input : ∀ path, d'.input = some path ↔ d.input = some path ∨ .input path ∈ settings
  output : ∀ path, d'.output = some path ↔ d.output = some path ∨ .output path ∈ settings
  lexOnly : d'.lexOnly = true ↔ d.lexOnly = true ∨ .lexOnly ∈ settings
  parseOnly : d'.parseOnly = true ↔ d.parseOnly = true ∨ .parseOnly ∈ settings

theorem Gains.append (h : d.Gains settings d₁) (h' : d₁.Gains more d') :
    d.Gains (settings ++ more) d' where
  input path := by rw [h'.input, h.input, List.mem_append, or_assoc]
  output path := by rw [h'.output, h.output, List.mem_append, or_assoc]
  lexOnly := by rw [h'.lexOnly, h.lexOnly, List.mem_append, or_assoc]
  parseOnly := by rw [h'.parseOnly, h.parseOnly, List.mem_append, or_assoc]

theorem gains_nil (hi : d'.input = d.input) (ho : d'.output = d.output)
    (hl : d'.lexOnly = d.lexOnly) (hp : d'.parseOnly = d.parseOnly) : d.Gains [] d' where
  input path := by simp [hi]
  output path := by simp [ho]
  lexOnly := by simp [hl]
  parseOnly := by simp [hp]

theorem Gains.congr (h : d₁.Gains settings d') (hi : d₁.input = d.input)
    (ho : d₁.output = d.output) (hl : d₁.lexOnly = d.lexOnly) (hp : d₁.parseOnly = d.parseOnly) :
    d.Gains settings d' :=
  (gains_nil hi ho hl hp).append h

/-- The next argument is read for itself: it is no value, and the options have not ended. -/
def Open (d : Draft) : Prop :=
  d.awaiting = false ∧ d.ended = false

theorem setInput_eq_ok (h : d.setInput path = .ok d') :
    d.Gains [.input path] d' ∧ d'.awaiting = d.awaiting ∧ d'.ended = d.ended := by
  unfold setInput at h
  split at h
  · cases h
  · rename_i hnone
    split at h
    · cases h
    · cases h
      have hinput : d.input = none := by simpa using hnone
      refine ⟨⟨fun path' => ?_, ?_, ?_, ?_⟩, rfl, rfl⟩ <;> simp [hinput, @eq_comm _ path]

theorem setOutput_eq_ok (h : d.setOutput path = .ok d') :
    d.Gains [.output path] d' ∧ d'.awaiting = false ∧ d'.ended = d.ended := by
  unfold setOutput at h
  split at h
  · cases h
  · rename_i hnone
    split at h
    · cases h
    · cases h
      have houtput : d.output = none := by simpa using hnone
      refine ⟨⟨?_, fun path' => ?_, ?_, ?_⟩, rfl, rfl⟩ <;> simp [houtput, @eq_comm _ path]

/-! ### Reading a spelling -/

theorem read_value (hended : d.ended = false) (h : IsValue argument) :
    d.read argument = if d.awaiting then d.setOutput argument else d.setInput argument := by
  unfold read
  rw [hended, if_neg Bool.false_ne_true]
  split
  · rename_i cs hcs
    exact absurd hcs (h _ _)
  · rename_i c cs hcs
    exact absurd hcs (h _ _)
  · rfl

theorem read_letters (ho : d.Open) {c : Char} {cs : List Char} (hc : c ≠ '-')
    (h : argument.toList = '-' :: c :: cs) : d.read argument = d.readLetters (c :: cs) := by
  unfold read
  rw [ho.2, h, if_neg Bool.false_ne_true]
  split
  · rename_i cs' hcs
    exact absurd (List.cons.inj (List.cons.inj hcs).2).1 hc
  · rename_i c' cs' hcs
    cases hcs
    rw [ho.1, if_neg Bool.false_ne_true]
  · rename_i hne
    exact absurd rfl (hne c cs)

theorem read_word (ho : d.Open) (cs : List Char) (hne : cs ≠ [])
    (h : argument.toList = '-' :: '-' :: cs) :
    d.read argument = d.readWord (splitValue cs).1 (splitValue cs).2 := by
  unfold read
  rw [ho.2, h, if_neg Bool.false_ne_true]
  simp [ho.1, hne]

theorem readLetters_replicate (n : Nat) (cs : List Char) : ∀ d : Draft,
    d.readLetters (List.replicate n 'v' ++ cs) =
      { d with verbosity := d.verbosity + n }.readLetters cs := by
  induction n with
  | zero => exact fun d => rfl
  | succ n ih =>
    intro d
    rw [List.replicate_succ, List.cons_append, readLetters, ih]
    simp only [Nat.add_assoc, Nat.add_comm 1 n]

/-- The letters that can be read: `v` so many times, and then an `o` perhaps. -/
inductive Lettered (d : Draft) : List Char → Draft → Prop where
  | verbose (n : Nat) :
    Lettered d (List.replicate n 'v') { d with verbosity := d.verbosity + n }
  | awaits (n : Nat) : Lettered d (List.replicate n 'v' ++ ['o'])
      { d with verbosity := d.verbosity + n, awaiting := true }
  | outputEq (n : Nat) {file : List Char} {d₀ d' : Draft} (h₀ : d₀.ended = d.ended)
    (h : d₀.setOutput (String.ofList file) = .ok d') :
    Lettered d (List.replicate n 'v' ++ 'o' :: '=' :: file) d'
  | output (n : Nat) {file : List Char} {d₀ d' : Draft} (hne : file ≠ [])
    (heq : file.head? ≠ some '=') (h₀ : d₀.ended = d.ended)
    (h : d₀.setOutput (String.ofList file) = .ok d') :
    Lettered d (List.replicate n 'v' ++ 'o' :: file) d'

theorem lettered_of_readLetters {cs : List Char} (h : d.readLetters cs = .ok d') :
    d.Lettered cs d' := by
  fun_induction readLetters d cs with
  | case1 d =>
    cases h
    exact .verbose 0
  | case2 d cs ih =>
    -- one more `v` in front of what the others are
    cases ih h with
    | verbose n =>
      have hone := Lettered.verbose (d := d) (n + 1)
      rwa [List.replicate_succ, Nat.add_comm n 1, ← Nat.add_assoc] at hone
    | awaits n =>
      have hone := Lettered.awaits (d := d) (n + 1)
      rwa [List.replicate_succ, Nat.add_comm n 1, ← Nat.add_assoc] at hone
    | outputEq n h₀ h => exact .outputEq (n + 1) h₀ h
    | output n hne heq h₀ h => exact .output (n + 1) hne heq h₀ h
  | case3 => cases h
  | case4 d =>
    cases h
    exact .awaits 0
  | case5 d file => exact .outputEq 0 rfl h
  | case6 d file hne heq =>
    refine .output 0 hne ?_ rfl h
    intro hhead
    obtain ⟨rest, rfl⟩ := List.head?_eq_some_iff.1 hhead
    exact heq rest rfl
  | case7 => cases h

/-! ### Options written out -/

theorem splitValue_append {name : List Char} (h : '=' ∉ name) (value : List Char) :
    splitValue (name ++ '=' :: value) = (String.ofList name, some (String.ofList value)) := by
  have htake : (name ++ '=' :: value).takeWhile (· ≠ '=') = name := by
    rw [List.takeWhile_append_of_pos (by simpa using fun c hc => ne_of_mem_of_not_mem hc h)]
    simp
  simp only [splitValue, htake]
  simp

theorem splitValue_eq (cs : List Char) :
    (splitValue cs).1.toList ++ ((splitValue cs).2.elim [] fun value => '=' :: value.toList) =
      cs := by
  have hsplit := List.takeWhile_append_dropWhile (p := (· ≠ '=')) (l := cs)
  have hdrop : cs.drop (cs.takeWhile (· ≠ '=')).length = cs.dropWhile (· ≠ '=') :=
    List.append_cancel_left ((List.prefix_iff_eq_append.1 (List.takeWhile_prefix _)).trans
      hsplit.symm)
  simp only [splitValue, String.toList_ofList]
  split
  · rename_i hlt
    rw [← List.drop_drop, hdrop, Option.elim_some, String.toList_ofList]
    cases hrest : cs.dropWhile (· ≠ '=') with
    | nil =>
      rw [hrest, List.append_nil] at hsplit
      rw [hsplit] at hlt
      exact absurd hlt (Nat.lt_irrefl _)
    | cons c rest =>
      have hhead := List.head?_dropWhile_not (· ≠ '=') cs
      rw [hrest] at hhead
      have hc : c = '=' := by simpa using hhead
      rw [hrest, hc] at hsplit
      exact hsplit
  · rename_i hle
    have hpre : cs.takeWhile (· ≠ '=') <+: cs := List.takeWhile_prefix _
    rw [Option.elim_none, List.append_nil, hpre.eq_of_length_le (Nat.le_of_not_lt hle)]

/-- The options that can be written out. -/
inductive Worded (d : Draft) : List Char → Draft → Prop where
  | outputEq {file : String} {d' : Draft} (h : d.setOutput file = .ok d') :
    Worded d ("output=".toList ++ file.toList) d'
  | awaits : Worded d "output".toList { d with awaiting := true }
  | lexOnly : Worded d "lex-only".toList { d with lexOnly := true }
  | parseOnly : Worded d "parse-only".toList { d with parseOnly := true }
  | verbose : Worded d "verbose".toList { d with verbosity := d.verbosity + 1 }

theorem worded_of_readWord {name : String} {value : Option String}
    (h : d.readWord name value = .ok d') :
    d.Worded (name.toList ++ value.elim [] fun value => '=' :: value.toList) d' := by
  unfold readWord at h
  split at h
  · exact .outputEq h
  · cases h
    exact .awaits
  · split at h
    · cases h
    · cases h
      exact .lexOnly
  · split at h
    · cases h
    · cases h
      exact .parseOnly
  · cases h
    exact .verbose
  · cases h
  · cases h

/-! ### All that is read is spelled -/

/-- What one argument can be, where it is read for itself. -/
inductive Reads (d : Draft) (argument : String) (d' : Draft) : Prop where
  | input (hvalue : IsValue argument) (h : d.setInput argument = .ok d')
  | ended (harg : argument = "--") (h : d' = { d with ended := true })
  | word {cs : List Char} (harg : argument.toList = '-' :: '-' :: cs) (h : d.Worded cs d')
  | letters {c : Char} {cs : List Char} (harg : argument.toList = '-' :: c :: cs)
    (h : d.Lettered (c :: cs) d')

theorem reads_of_read (ho : d.Open) (h : d.read argument = .ok d') : d.Reads argument d' := by
  unfold read at h
  rw [ho.2, if_neg Bool.false_ne_true] at h
  split at h
  · rename_i cs harg
    rw [if_neg (by simp [ho.1])] at h
    split at h
    · rename_i hempty
      rw [List.isEmpty_iff.1 hempty] at harg
      exact .ended (String.toList_inj.1 harg) (Except.ok.inj h).symm
    · have hread : d.readWord (splitValue cs).1 (splitValue cs).2 = .ok d' := h
      exact .word harg (splitValue_eq cs ▸ worded_of_readWord hread)
  · rename_i c cs _ harg
    rw [ho.1, if_neg Bool.false_ne_true] at h
    exact .letters harg (lettered_of_readLetters h)
  · rename_i _ hvalue
    rw [ho.1, if_neg Bool.false_ne_true] at h
    exact .input (fun c cs => hvalue c cs) h

theorem foldlM_read_cons {rest : List String} :
    (argument :: rest).foldlM read d = .ok d' ↔
      ∃ d₁, d.read argument = .ok d₁ ∧ rest.foldlM read d₁ = .ok d' := by
  rw [List.foldlM_cons]
  exact except_bind_eq_ok

theorem isValue_of_awaiting (hawaits : d.awaiting = true) (hended : d.ended = false)
    (h : d.read argument = .ok d') : IsValue argument := by
  intro c cs hcs
  unfold read at h
  rw [hended, hcs, if_neg Bool.false_ne_true] at h
  split at h
  · rw [if_pos hawaits] at h
    cases h
  · rw [if_pos hawaits] at h
    cases h
  · rename_i hne
    exact hne c cs rfl

theorem letters_eq {n : Nat} {cs : List Char}
    (h : argument.toList = '-' :: (List.replicate n 'v' ++ cs)) :
    argument = letters n ++ String.ofList cs := by
  rw [← String.toList_inj, h, letters]
  simp

theorem exists_spelled_cons {rest : List String} (ho : d.Open) (h : d.read argument = .ok d₁)
    (hrest : d₁.ended = false → (d₁.awaiting = false → ∃ settings, Spelled rest settings) ∧
      (d₁.awaiting = true → ∃ value more settings, rest = value :: more ∧ IsValue value ∧
        Spelled more settings)) :
    ∃ settings, Spelled (argument :: rest) settings := by
  cases reads_of_read ho h with
  | input hvalue h =>
    obtain ⟨-, hawaits, hended⟩ := setInput_eq_ok h
    obtain ⟨settings, hs⟩ := (hrest (hended.trans ho.2)).1 (hawaits.trans ho.1)
    exact ⟨_, .input hvalue hs⟩
  | ended harg h =>
    obtain rfl := harg
    exact ⟨_, .ended rest⟩
  | word harg h =>
    cases h with
    | @outputEq file _ h =>
      obtain ⟨-, hawaits, hended⟩ := setOutput_eq_ok h
      obtain ⟨settings, hs⟩ := (hrest (hended.trans ho.2)).1 hawaits
      obtain rfl : argument = "--output=" ++ file := by
        rw [← String.toList_inj, harg, String.toList_append]
        rfl
      exact ⟨_, .output .wordEq hs⟩
    | awaits =>
      obtain ⟨value, more, settings, rfl, hvalue, hs⟩ := (hrest ho.2).2 rfl
      obtain rfl : argument = "--output" := String.toList_inj.1 harg
      exact ⟨_, .output (.word hvalue) hs⟩
    | lexOnly =>
      obtain ⟨settings, hs⟩ := (hrest ho.2).1 ho.1
      obtain rfl : argument = "--lex-only" := String.toList_inj.1 harg
      exact ⟨_, .lexOnly hs⟩
    | parseOnly =>
      obtain ⟨settings, hs⟩ := (hrest ho.2).1 ho.1
      obtain rfl : argument = "--parse-only" := String.toList_inj.1 harg
      exact ⟨_, .parseOnly hs⟩
    | verbose =>
      obtain ⟨settings, hs⟩ := (hrest ho.2).1 ho.1
      obtain rfl : argument = "--verbose" := String.toList_inj.1 harg
      exact ⟨_, .verbose hs⟩
  | @letters c cs harg h =>
    generalize hall : c :: cs = all at harg h
    cases h with
    | verbose n =>
      obtain ⟨settings, hs⟩ := (hrest ho.2).1 ho.1
      cases n with
      | zero => cases hall
      | succ n =>
        obtain rfl : argument = letters (n + 1) := by
          rw [← String.toList_inj, harg, letters]
          simp
        exact ⟨_, .letters n hs⟩
    | awaits n =>
      obtain ⟨value, more, settings, rfl, hvalue, hs⟩ := (hrest ho.2).2 rfl
      obtain rfl := letters_eq harg
      exact ⟨_, .output (.letter n hvalue) hs⟩
    | @outputEq n file d₀ _ h₀ h =>
      obtain ⟨-, hawaits, hended⟩ := setOutput_eq_ok h
      obtain ⟨settings, hs⟩ := (hrest ((hended.trans h₀).trans ho.2)).1 hawaits
      obtain rfl : argument = letters n ++ "o=" ++ String.ofList file := by
        rw [letters_eq harg, ← String.toList_inj]
        simp
      exact ⟨_, .output (.letterEq n) hs⟩
    | @output n file d₀ _ hne heq h₀ h =>
      obtain ⟨-, hawaits, hended⟩ := setOutput_eq_ok h
      obtain ⟨settings, hs⟩ := (hrest ((hended.trans h₀).trans ho.2)).1 hawaits
      obtain rfl : argument = letters n ++ "o" ++ String.ofList file := by
        rw [letters_eq harg, ← String.toList_inj]
        simp
      refine ⟨_, .output (.attached n ?_ ?_) hs⟩
      · rwa [String.toList_ofList]
      · rwa [String.toList_ofList]

/-- **Arguments that can be read are spelled,** after the one that is awaited. -/
theorem exists_spelled (args : List String) : ∀ {d d' : Draft}, d.ended = false →
    d'.awaiting = false → args.foldlM read d = .ok d' →
    (d.awaiting = false → ∃ settings, Spelled args settings) ∧
    (d.awaiting = true → ∃ value more settings, args = value :: more ∧ IsValue value ∧
      Spelled more settings) := by
  induction args with
  | nil =>
    intro d d' _ hd h
    cases h
    exact ⟨fun _ => ⟨[], .nil⟩, fun hawaits => by rw [hawaits] at hd; cases hd⟩
  | cons argument rest ih =>
    intro d d' hended hd h
    obtain ⟨d₁, hread, hrest⟩ := foldlM_read_cons.1 h
    refine ⟨fun hawaits => ?_, fun hawaits => ?_⟩
    · exact exists_spelled_cons ⟨hawaits, hended⟩ hread fun hended₁ => ih hended₁ hd hrest
    · have hvalue := isValue_of_awaiting hawaits hended hread
      rw [read_value hended hvalue, if_pos hawaits] at hread
      obtain ⟨-, hawaits₁, hended₁⟩ := setOutput_eq_ok hread
      obtain ⟨settings, hs⟩ := (ih (hended₁.trans hended) hd hrest).1 hawaits₁
      exact ⟨argument, rest, settings, rfl, hvalue, hs⟩

/-! ### All that is spelled is read -/

theorem toList_letters (n : Nat) (text : String) :
    (letters n ++ text).toList = '-' :: (List.replicate n 'v' ++ text.toList) := by
  simp [letters]

/-- Letters that start with `v` or `o` are read as letters. -/
theorem read_letters_append (ho : d.Open) {n : Nat} {text : String}
    (h : text.toList.head? = some 'o' ∨ 0 < n ∧ text = "") :
    d.read (letters n ++ text) =
      { d with verbosity := d.verbosity + n }.readLetters text.toList := by
  have hlist := toList_letters n text
  rw [← readLetters_replicate]
  cases n with
  | zero =>
    obtain ⟨rest, hrest⟩ := List.head?_eq_some_iff.1 (h.resolve_right fun h => Nat.lt_irrefl 0 h.1)
    rw [hrest] at hlist ⊢
    exact read_letters ho (by decide) hlist
  | succ n => exact read_letters ho (by decide) hlist

theorem readLetters_attached {cs : List Char} (hne : cs ≠ []) (heq : cs.head? ≠ some '=') :
    d.readLetters ('o' :: cs) = d.setOutput (String.ofList cs) := by
  rw [readLetters]
  · exact hne
  · rintro rest rfl
    exact heq rfl

theorem gains_of_namesOutput {used : List String} (hused : NamesOutput path used) (ho : d.Open)
    (h : used.foldlM read d = .ok d') : d.Gains [.output path] d' ∧ d'.Open := by
  -- In the end it is set, from a state that differs in nothing that matters.
  have hset : ∀ {d₀ : Draft}, d₀.setOutput path = .ok d' → d.Gains [] d₀ → d₀.ended = d.ended →
      d.Gains [.output path] d' ∧ d'.Open := by
    intro d₀ hset hgains hended
    obtain ⟨hgains', hawaits, hended'⟩ := setOutput_eq_ok hset
    exact ⟨hgains.append hgains', hawaits, (hended'.trans hended).trans ho.2⟩
  have hvalue : ∀ {d₀ : Draft}, d₀.read path = .ok d' → IsValue path → d.Gains [] d₀ →
      d₀.ended = d.ended → d₀.awaiting = true → d.Gains [.output path] d' ∧ d'.Open := by
    intro d₀ hread hvalue hgains hended hawaits
    rw [read_value (hended.trans ho.2) hvalue, if_pos hawaits] at hread
    exact hset hread hgains hended
  cases hused with
  | word hpath =>
    obtain ⟨d₁, hword, hrest⟩ := foldlM_read_cons.1 h
    obtain ⟨d₂, hread, hnil⟩ := foldlM_read_cons.1 hrest
    cases hnil
    rw [read_word ho "output".toList (by decide) rfl] at hword
    cases hword
    exact hvalue hread hpath (gains_nil rfl rfl rfl rfl) rfl rfl
  | wordEq =>
    obtain ⟨d₁, hword, hnil⟩ := foldlM_read_cons.1 h
    cases hnil
    have hlist : ("--output=" ++ path).toList =
        '-' :: '-' :: ("output".toList ++ '=' :: path.toList) := by
      rw [String.toList_append]
      rfl
    rw [read_word ho _ (by simp) hlist, splitValue_append (by decide), String.ofList_toList,
      String.ofList_toList] at hword
    exact hset hword (gains_nil rfl rfl rfl rfl) rfl
  | letter n hpath =>
    obtain ⟨d₁, hword, hrest⟩ := foldlM_read_cons.1 h
    obtain ⟨d₂, hread, hnil⟩ := foldlM_read_cons.1 hrest
    cases hnil
    rw [read_letters_append ho (.inl rfl)] at hword
    cases hword
    exact hvalue hread hpath (gains_nil rfl rfl rfl rfl) rfl rfl
  | letterEq n =>
    obtain ⟨d₁, hword, hnil⟩ := foldlM_read_cons.1 h
    cases hnil
    have hlist : ("o=" ++ path).toList = 'o' :: '=' :: path.toList := by
      rw [String.toList_append]
      rfl
    rw [String.append_assoc, read_letters_append ho (.inl (by rw [hlist]; rfl)), hlist, readLetters,
      String.ofList_toList] at hword
    exact hset hword (gains_nil rfl rfl rfl rfl) rfl
  | attached n hne heq =>
    obtain ⟨d₁, hword, hnil⟩ := foldlM_read_cons.1 h
    cases hnil
    have hlist : ("o" ++ path).toList = 'o' :: path.toList := by
      rw [String.toList_append]
      rfl
    rw [String.append_assoc, read_letters_append ho (.inl (by rw [hlist]; rfl)), hlist,
      readLetters_attached hne heq, String.ofList_toList] at hword
    exact hset hword (gains_nil rfl rfl rfl rfl) rfl

theorem gains_of_ended (paths : List String) : ∀ {d : Draft}, d.ended = true →
    paths.foldlM read d = .ok d' → d.Gains (paths.map .input) d' := by
  induction paths with
  | nil =>
    intro d _ h
    cases h
    exact gains_nil rfl rfl rfl rfl
  | cons path paths ih =>
    intro d hended h
    obtain ⟨d₁, hread, hrest⟩ := foldlM_read_cons.1 h
    rw [read, if_pos hended] at hread
    obtain ⟨hgains, -, hended₁⟩ := setInput_eq_ok hread
    exact hgains.append (ih (hended₁.trans hended) hrest)

theorem foldlM_read_append {used rest : List String} :
    (used ++ rest).foldlM read d = .ok d' ↔
      ∃ d₁, used.foldlM read d = .ok d₁ ∧ rest.foldlM read d₁ = .ok d' := by
  rw [List.foldlM_append]
  exact except_bind_eq_ok

theorem readWord_lexOnly (h : d.readWord "lex-only" none = .ok d') :
    d.Gains [.lexOnly] d' ∧ d'.awaiting = d.awaiting ∧ d'.ended = d.ended := by
  rw [readWord] at h
  split at h
  · cases h
  · cases h
    exact ⟨⟨by simp, by simp, by simp, by simp⟩, rfl, rfl⟩

theorem readWord_parseOnly (h : d.readWord "parse-only" none = .ok d') :
    d.Gains [.parseOnly] d' ∧ d'.awaiting = d.awaiting ∧ d'.ended = d.ended := by
  rw [readWord] at h
  split at h
  · cases h
  · cases h
    exact ⟨⟨by simp, by simp, by simp, by simp⟩, rfl, rfl⟩

/-- **The settings of any spelling are read.** -/
theorem gains_of_spelled {args : List String} (hs : Spelled args settings) :
    ∀ {d : Draft}, d.Open → args.foldlM read d = .ok d' → d.Gains settings d' := by
  induction hs with
  | nil =>
    intro d _ h
    cases h
    exact gains_nil rfl rfl rfl rfl
  | input hvalue _ ih =>
    intro d ho h
    obtain ⟨d₁, hread, hrest⟩ := foldlM_read_cons.1 h
    rw [read_value ho.2 hvalue, ho.1, if_neg Bool.false_ne_true] at hread
    obtain ⟨hgains, hawaits, hended⟩ := setInput_eq_ok hread
    exact hgains.append (ih ⟨hawaits.trans ho.1, hended.trans ho.2⟩ hrest)
  | output hused _ ih =>
    intro d ho h
    obtain ⟨d₁, hread, hrest⟩ := foldlM_read_append.1 h
    obtain ⟨hgains, ho₁⟩ := gains_of_namesOutput hused ho hread
    exact hgains.append (ih ho₁ hrest)
  | lexOnly _ ih =>
    intro d ho h
    obtain ⟨d₁, hread, hrest⟩ := foldlM_read_cons.1 h
    rw [read_word ho "lex-only".toList (by decide) rfl] at hread
    obtain ⟨hgains, hawaits, hended⟩ := readWord_lexOnly hread
    exact hgains.append (ih ⟨hawaits.trans ho.1, hended.trans ho.2⟩ hrest)
  | parseOnly _ ih =>
    intro d ho h
    obtain ⟨d₁, hread, hrest⟩ := foldlM_read_cons.1 h
    rw [read_word ho "parse-only".toList (by decide) rfl] at hread
    obtain ⟨hgains, hawaits, hended⟩ := readWord_parseOnly hread
    exact hgains.append (ih ⟨hawaits.trans ho.1, hended.trans ho.2⟩ hrest)
  | verbose _ ih =>
    intro d ho h
    obtain ⟨d₁, hread, hrest⟩ := foldlM_read_cons.1 h
    rw [read_word ho "verbose".toList (by decide) rfl] at hread
    cases hread
    have hgains := ih (d := { d with verbosity := d.verbosity + 1 }) ho hrest
    exact hgains.congr rfl rfl rfl rfl
  | letters n _ ih =>
    intro d ho h
    obtain ⟨d₁, hread, hrest⟩ := foldlM_read_cons.1 h
    rw [← String.append_empty (s := letters (n + 1)),
      read_letters_append ho (.inr ⟨Nat.succ_pos n, rfl⟩)] at hread
    cases hread
    have hgains := ih (d := { d with verbosity := d.verbosity + (n + 1) }) ho hrest
    exact hgains.congr rfl rfl rfl rfl
  | ended paths =>
    intro d ho h
    obtain ⟨d₁, hread, hrest⟩ := foldlM_read_cons.1 h
    have hended : d.read "--" = .ok { d with ended := true } := by
      rw [read, ho.2, if_neg Bool.false_ne_true]
      show (if d.awaiting = true then _ else _) = _
      rw [ho.1, if_neg Bool.false_ne_true]
      rfl
    cases hended.symm.trans hread
    have hgains := gains_of_ended paths (d := { d with ended := true }) rfl hrest
    exact hgains.congr rfl rfl rfl rfl

end Draft

/-! ### The reader -/

namespace Options

theorem gains_of_ofArgs {args : List String} {o : Options} (h : ofArgs args = .ok o) :
    ∃ d : Draft, (∃ settings, Spelled args settings) ∧
      (∀ settings, Spelled args settings → Draft.Gains {} settings d) ∧
      d.input = some o.input ∧ d.output = o.output ∧ d.lexOnly = o.lexOnly ∧
      d.parseOnly = o.parseOnly := by
  obtain ⟨d, hread, hfinish⟩ := except_bind_eq_ok.1 h
  unfold Draft.finish at hfinish
  split at hfinish
  · cases hfinish
  · rename_i hawaits
    split at hfinish
    · cases hfinish
    · rename_i input hinput
      cases hfinish
      have hopen : Draft.Open {} := ⟨rfl, rfl⟩
      exact ⟨d, (Draft.exists_spelled args rfl (by simpa using hawaits) hread).1 rfl,
        fun settings hs => Draft.gains_of_spelled hs hopen hread, hinput, rfl, rfl, rfl⟩

/-- A setting is given if it is in any spelling, as it is then in all of them. -/
theorem given_iff {args : List String} {setting : Setting} {P : Prop}
    (hsome : ∃ settings, Spelled args settings)
    (h : ∀ settings, Spelled args settings → (P ↔ setting ∈ settings)) :
    Given args setting ↔ P := by
  constructor
  · rintro ⟨settings, hs, hmem⟩
    exact (h settings hs).2 hmem
  · intro hP
    obtain ⟨settings, hs⟩ := hsome
    exact ⟨settings, hs, (h settings hs).1 hP⟩

/-- **The reader takes what is given.** -/
theorem follows_ofArgs : Follows ofArgs where
  input h path := by
    obtain ⟨d, hsome, hgains, hinput, -⟩ := gains_of_ofArgs h
    refine given_iff hsome fun settings hs => ?_
    have hpath := (hgains settings hs).input path
    simpa [hinput] using hpath
  output h path := by
    obtain ⟨d, hsome, hgains, -, houtput, -⟩ := gains_of_ofArgs h
    refine given_iff hsome fun settings hs => ?_
    have hpath := (hgains settings hs).output path
    simpa [houtput] using hpath
  lexOnly h := by
    obtain ⟨d, hsome, hgains, -, -, hlex, -⟩ := gains_of_ofArgs h
    refine given_iff hsome fun settings hs => ?_
    have hflag := (hgains settings hs).lexOnly
    simpa [hlex] using hflag
  parseOnly h := by
    obtain ⟨d, hsome, hgains, -, -, -, hparse⟩ := gains_of_ofArgs h
    refine given_iff hsome fun settings hs => ?_
    have hflag := (hgains settings hs).parseOnly
    simpa [hparse] using hflag

end Options

end GLang.Command
