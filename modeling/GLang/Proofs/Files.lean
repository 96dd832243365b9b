import GLang.Command.FileTree
import GLang.Proofs.Generation

/-!
# Where files are

A path leads to a place, and a file is at a place. What it means to read and to write a file can be
said of places: this is `FileSystem.Places`, which leaves open what the places are and how a path
leads there.

* `Path.ReplacesExtension`: a path with another extension of its file name.
* `FileSystem.Places`: what reading and writing do.
* `FileTree.Open`: whatever path one follows, one goes through directories only, so that a path
  which ends with `..` leads to no file.
* `FileTree.places`: a tree of files is a file system of this kind.
-/

namespace GLang

/-! ### The file name of a path -/

namespace Path

variable {name directory : List Char}

theorem withoutSlashes_of_length {ns : List String}
    (h : ¬ (withoutSlashes ns).length < ns.length) : withoutSlashes ns = ns := by
  have hpre : withoutSlashes ns <+: ns := by
    rw [withoutSlashes, ← List.reverse_suffix, List.reverse_reverse]
    exact List.dropWhile_suffix _
  exact hpre.eq_of_length_le (Nat.le_of_not_lt h)

theorem pieces_ne_nil (cs : List Char) : pieces cs ≠ [] := by
  fun_cases pieces cs <;> simp

/-- A character other than a slash belongs to the first piece. -/
theorem pieces_cons {c : Char} (hc : c ≠ '/') {cs piece : List Char} {rest : List (List Char)}
    (h : pieces cs = piece :: rest) : pieces (c :: cs) = (c :: piece) :: rest := by
  rw [pieces, h]
  exact hc

theorem pieces_of_not_mem (h : '/' ∉ name) : pieces name = [name] := by
  induction name with
  | nil => rfl
  | cons c cs ih =>
    rw [List.mem_cons, not_or] at h
    exact pieces_cons (Ne.symm h.1) (ih h.2)

theorem pieces_append_slash (cs rest : List Char) :
    pieces (cs ++ '/' :: rest) = pieces cs ++ pieces rest := by
  induction cs with
  | nil => rfl
  | cons c cs ih =>
    by_cases hc : c = '/'
    · simp [hc, pieces, ih]
    · obtain ⟨piece, more, hpieces⟩ := List.exists_cons_of_ne_nil (pieces_ne_nil cs)
      rw [hpieces] at ih
      rw [List.cons_append, pieces_cons hc ih, pieces_cons hc hpieces]
      rfl

/-- A path is the path of a directory, which is empty or ends with a slash, and a file name. -/
structure Splits (path directory name : List Char) : Prop where
  eq : path = directory ++ name
  slash : directory = [] ∨ ∃ cs, directory = cs ++ ['/']
  noSlash : '/' ∉ name

/-- What is left of a file name without its extension: all before the last point, or the whole name
if it has no point behind its first character. -/
inductive IsStem : List Char → List Char → Prop where
  | cut {stem extension : List Char} (hstem : stem ≠ []) (h : '.' ∉ extension) :
    IsStem (stem ++ '.' :: extension) stem
  | whole {c : Char} {cs : List Char} (h : '.' ∉ cs) : IsStem (c :: cs) (c :: cs)

/-- `new` is the path `old` with the extension of its file name replaced, or added if it has
none. -/
def ReplacesExtension (old extension new : String) : Prop :=
  ∃ directory name stem, Splits old.toList directory name ∧ IsStem name stem ∧
    new.toList = directory ++ stem ++ '.' :: extension.toList

/-- The path ends with a name of a file, not with a slash or with points. -/
def NamesFile (path : String) : Prop :=
  (names path).getLastD "" ∉ ["", ".", ".."]

instance (path : String) : Decidable (NamesFile path) :=
  inferInstanceAs (Decidable (_ ∉ _))

theorem Splits.names_eq {path : String} (h : Splits path.toList directory name) :
    ∃ before, names path = before ++ [String.ofList name] := by
  unfold names
  rw [h.eq]
  rcases h.slash with rfl | ⟨cs, rfl⟩
  · exact ⟨[], by simp [pieces_of_not_mem h.noSlash]⟩
  · refine ⟨(pieces cs).map String.ofList, ?_⟩
    rw [List.append_assoc, List.singleton_append, pieces_append_slash, pieces_of_not_mem h.noSlash,
      List.map_append, List.map_singleton]

theorem Splits.namesFile_iff {path : String} (h : Splits path.toList directory name) :
    NamesFile path ↔ String.ofList name ∉ ["", ".", ".."] := by
  obtain ⟨before, hnames⟩ := h.names_eq
  rw [NamesFile, hnames, List.getLastD_concat]

theorem eq_of_dropWhile {mark c : Char} {cs rest : List Char}
    (h : cs.dropWhile (· ≠ mark) = c :: rest) : c = mark := by
  have hhead := List.head?_dropWhile_not (· ≠ mark) cs
  rw [h] at hhead
  simpa using hhead

theorem isStem_stemBackwards (h : name ≠ []) :
    IsStem name (stemBackwards name.reverse).reverse := by
  have hsplit := List.takeWhile_append_dropWhile (p := (· ≠ '.')) (l := name.reverse)
  have hextension : '.' ∉ (name.reverse.takeWhile (· ≠ '.')).reverse := by
    intro hmem
    simpa using List.mem_takeWhile_imp (List.mem_reverse.1 hmem)
  unfold stemBackwards
  split
  · rename_i c stem hdrop
    rw [hdrop, eq_of_dropWhile hdrop] at hsplit
    have hname := congrArg List.reverse hsplit
    simp only [List.reverse_append, List.reverse_cons, List.append_assoc, List.singleton_append,
      List.reverse_reverse] at hname
    split
    · rename_i hstem
      rw [List.isEmpty_iff.1 hstem, List.reverse_nil, List.nil_append] at hname
      rw [List.reverse_reverse, ← hname]
      exact .whole hextension
    · rename_i hstem
      rw [← hname]
      exact .cut (by simpa using hstem) hextension
  · rename_i hdrop
    rw [hdrop, List.append_nil] at hsplit
    rw [hsplit, List.reverse_reverse] at hextension
    rw [List.reverse_reverse]
    obtain ⟨c, cs, rfl⟩ := List.exists_cons_of_ne_nil h
    exact .whole (fun hmem => hextension (List.mem_cons_of_mem _ hmem))

theorem splits_withExtension (path : String) :
    ∃ directory name, Splits path.toList directory name ∧ ∀ extension,
      withExtension path extension =
        if name.reverse.dropWhile (· ≠ '.') = ['.', '.'] then
          String.ofList (directory ++ ['.', '.'])
        else
          String.ofList (directory ++ (stemBackwards name.reverse).reverse) ++ "." ++
            extension := by
  have hrest : path.toList.reverse.drop (path.toList.reverse.takeWhile (· ≠ '/')).length =
      path.toList.reverse.dropWhile (· ≠ '/') :=
    List.append_cancel_left ((List.prefix_iff_eq_append.1 (List.takeWhile_prefix _)).trans
      List.takeWhile_append_dropWhile.symm)
  refine ⟨(path.toList.reverse.dropWhile (· ≠ '/')).reverse,
    (path.toList.reverse.takeWhile (· ≠ '/')).reverse, ⟨?_, ?_, ?_⟩, fun extension => ?_⟩
  · rw [← List.reverse_append, List.takeWhile_append_dropWhile, List.reverse_reverse]
  · cases hdir : path.toList.reverse.dropWhile (· ≠ '/') with
    | nil => exact .inl rfl
    | cons c cs =>
      exact .inr ⟨cs.reverse, by rw [eq_of_dropWhile hdir, List.reverse_cons]⟩
  · intro hmem
    simpa using List.mem_takeWhile_imp (List.mem_reverse.1 hmem)
  · rw [withExtension, hrest, List.reverse_reverse]

/-- If both a path and the path with another extension name files, the extension of the file name
has been replaced. -/
theorem replacesExtension_withExtension {path extension : String} (h : NamesFile path)
    (h' : NamesFile (withExtension path extension)) :
    ReplacesExtension path extension (withExtension path extension) := by
  obtain ⟨directory, name, hs, hext⟩ := splits_withExtension path
  have hname : name ≠ [] := by
    rintro rfl
    exact hs.namesFile_iff.1 h (by decide)
  by_cases hpoints : name.reverse.dropWhile (· ≠ '.') = ['.', '.']
  · rw [hext, if_pos hpoints] at h'
    have hparent : Splits (String.ofList (directory ++ ['.', '.'])).toList directory ['.', '.'] :=
      ⟨String.toList_ofList, hs.slash, by decide⟩
    exact absurd (by decide) (hparent.namesFile_iff.1 h')
  · refine ⟨directory, name, _, hs, isStem_stemBackwards hname, ?_⟩
    rw [hext, if_neg hpoints]
    simp

end Path

/-! ### Reading and writing -/

/-- What reading and writing do, in a file system with states `σ` and places `κ`. Reading changes
nothing. A file that has been written is where its path leads, and all other files are as they were;
a write that fails leaves all files as they were. -/
structure FileSystem.Places {σ : Type} (fs : FileSystem (StateM σ)) (κ : Type) where
  /-- Where a path leads. -/
  place? : σ → String → Option κ
  /-- The file at a place. -/
  file? : σ → κ → Option Content
  read_state : ∀ path s, ((fs.read path).run s).2 = s
  read_ok : ∀ {path s text}, ((fs.read path).run s).1 = .ok text →
    Path.NamesFile path ∧ ∃ k, place? s path = some k ∧ file? s k = some (.text text)
  write_ok : ∀ {path text s s'}, (fs.write path text).run s = (.ok (), s') →
    Path.NamesFile path ∧ ∃ k, place? s path = some k ∧ place? s' path = some k ∧
      file? s' k = some (.text text) ∧ ∀ other, other ≠ k → file? s' other = file? s other
  write_error : ∀ {path text s s' e}, (fs.write path text).run s = (.error e, s') →
    ∀ k, file? s' k = file? s k


namespace FileTree

variable {t t' : FileTree} {place place' other : List String} {path text name : String}
variable {names : List String}

/-! ### Replacing and adding a file -/

theorem lookup_map_of_ne {files : List (List String × Content)} {content : Content}
    (h : other ≠ place) :
    (files.map fun f => if f.1 = place then (place, content) else f).lookup other =
      files.lookup other := by
  induction files with
  | nil => rfl
  | cons f files ih =>
    obtain ⟨key, old⟩ := f
    by_cases hkey : key = place
    · simp [hkey, List.lookup_cons, beq_false_of_ne h, ih]
    · simp [hkey, List.lookup_cons, ih]

theorem lookup_map_self {files : List (List String × Content)} {content : Content}
    (h : (files.lookup place).isSome) :
    (files.map fun f => if f.1 = place then (place, content) else f).lookup place =
      some content := by
  induction files with
  | nil => cases h
  | cons f files ih =>
    obtain ⟨key, old⟩ := f
    by_cases hkey : key = place
    · simp [hkey]
    · have hne : (place == key) = false := beq_false_of_ne (Ne.symm hkey)
      simp only [List.lookup_cons, hne] at h
      simp [hkey, List.lookup_cons, hne, ih h]

theorem home_put : (t.put place text).home = t.home := by
  unfold put
  split <;> rfl

theorem file?_put_self : (t.put place text).file? place = some (.text text) := by
  unfold put
  split
  · rename_i h
    exact lookup_map_self h
  · rename_i h
    have hnone : t.files.lookup place = none := Option.not_isSome_iff_eq_none.1 h
    simp [file?, List.lookup_append, hnone]

theorem file?_put_of_ne (h : other ≠ place) : (t.put place text).file? other = t.file? other := by
  unfold put
  split
  · exact lookup_map_of_ne h
  · simp [file?, List.lookup_append, List.lookup_cons, beq_false_of_ne h]

/-- No path of a file is lost when another is written. -/
theorem any_put {check : List String → Bool} (h : t.files.any fun f => check f.1) :
    (t.put place text).files.any fun f => check f.1 := by
  obtain ⟨f, hf, hcheck⟩ := List.any_eq_true.1 h
  unfold put
  split
  · refine List.any_eq_true.2 ⟨_, List.mem_map_of_mem hf, ?_⟩
    split
    · rename_i hkey
      exact hkey ▸ hcheck
    · exact hcheck
  · exact List.any_eq_true.2 ⟨f, List.mem_append_left _ hf, hcheck⟩

theorem entry_eq_file {content : Content} :
    t.entry place = .file content ↔ ¬ place.isPrefixOf t.home ∧ t.file? place = some content := by
  unfold entry
  by_cases hhome : place.isPrefixOf t.home
  · simp [hhome]
  · rw [if_neg hhome]
    cases t.file? place with
    | some => simp [hhome]
    | none =>
      by_cases hany : t.files.any fun f => place.isPrefixOf f.1
      · simp [hany]
      · simp [hany]

theorem entry_put (hne : other ≠ place) (h : t.entry other = .directory) :
    (t.put place text).entry other = .directory := by
  unfold entry at h ⊢
  rw [file?_put_of_ne hne, home_put]
  split at h
  · rename_i hhome
    rw [if_pos hhome]
  · rename_i hhome
    rw [if_neg hhome]
    cases hfile : t.file? other with
    | some content =>
      rw [hfile] at h
      cases h
    | none =>
      rw [hfile] at h
      by_cases hany : t.files.any fun f => other.isPrefixOf f.1
      · simp only [any_put hany, if_true]
      · simp only [hany] at h
        cases h

/-! ### Following a path -/

/-- What one step along a path can do. -/
theorem step_eq_ok (h : t.step place name = .ok place') :
    t.entry place = .directory ∧
      ((name = "" ∨ name = ".") ∧ place' = place ∨ name = ".." ∧ place' = place.dropLast ∨
        (name ≠ "" ∧ name ≠ "." ∧ name ≠ "..") ∧ place' = place ++ [name]) := by
  unfold step at h
  split at h
  · cases h
  · cases h
  · rename_i hdir
    refine ⟨hdir, ?_⟩
    split at h
    · rename_i hname
      exact .inl ⟨hname, (Except.ok.inj h).symm⟩
    · rename_i hname
      split at h
      · rename_i hup
        exact .inr (.inl ⟨hup, (Except.ok.inj h).symm⟩)
      · rename_i hup
        exact .inr (.inr ⟨⟨fun h => hname (.inl h), fun h => hname (.inr h), hup⟩,
          (Except.ok.inj h).symm⟩)

/-- A step asks nothing of a tree but that the place is a directory. -/
theorem step_congr (h : t.entry place = t'.entry place) :
    t.step place name = t'.step place name := by
  unfold step
  rw [h]

theorem foldlM_step_cons : (name :: names).foldlM t.step place = .ok place' ↔
    ∃ next, t.step place name = .ok next ∧ names.foldlM t.step next = .ok place' := by
  rw [List.foldlM_cons]
  exact except_bind_eq_ok

/-- No file is on the way to a place. -/
def Open (t : FileTree) (place : List String) : Prop :=
  ∀ before after, place = before ++ after → after ≠ [] → t.entry before = .directory

theorem open_dropLast (ho : t.Open place) : t.Open place.dropLast := by
  cases place using List.reverseRecOn with
  | nil => exact ho
  | append_singleton init last =>
    intro before after hinit hne
    rw [List.dropLast_concat] at hinit
    exact ho before (after ++ [last]) (by rw [hinit, List.append_assoc]) (by simp)

/-- The directory above a place is one, if the place is one or something lies there. -/
theorem entry_dropLast (ho : t.Open place) (h : t.entry place = .directory) :
    t.entry place.dropLast = .directory := by
  cases place using List.reverseRecOn with
  | nil => exact h
  | append_singleton init last =>
    rw [List.dropLast_concat]
    exact ho init [last] rfl (List.cons_ne_nil _ _)

theorem open_step (ho : t.Open place) (h : t.step place name = .ok place') : t.Open place' := by
  obtain ⟨hdir, ⟨-, rfl⟩ | ⟨-, rfl⟩ | ⟨-, rfl⟩⟩ := step_eq_ok h
  · exact ho
  · exact open_dropLast ho
  · intro before after hplace hne
    cases after using List.reverseRecOn with
    | nil => exact absurd rfl hne
    | append_singleton rest last =>
      have hfull : place = before ++ rest := by
        rw [← List.append_assoc] at hplace
        exact (List.append_inj' hplace rfl).1
      -- either `before` is the place that the step starts from, or it lies on the way there
      by_cases hrest : rest = []
      · rw [hrest, List.append_nil] at hfull
        exact hfull ▸ hdir
      · exact ho before rest hfull hrest

theorem open_foldlM (ho : t.Open place) (h : names.foldlM t.step place = .ok place') :
    t.Open place' := by
  induction names generalizing place with
  | nil =>
    cases h
    exact ho
  | cons name names ih =>
    obtain ⟨next, hnext, hrest⟩ := foldlM_step_cons.1 h
    exact ih (open_step ho hnext) hrest

theorem open_of_walk (h : t.walk path names = .ok place) : t.Open place := by
  refine open_foldlM ?_ h
  intro before after hstart hne
  split at hstart
  · exact absurd (List.append_eq_nil_iff.1 hstart.symm).2 hne
  · -- the directories above the working directory exist
    rw [entry, if_pos]
    rw [hstart]
    exact List.isPrefixOf_iff_prefix.2 (List.prefix_append _ _)

/-- A path that ends with a slash or with points leads to a directory. -/
theorem entry_of_walk_points (hname : name ∈ ["", ".", ".."])
    (h : t.walk path (names ++ [name]) = .ok place) : t.entry place = .directory := by
  unfold walk at h
  rw [List.foldlM_append] at h
  obtain ⟨before, hbefore, hlast⟩ := except_bind_eq_ok.1 h
  obtain ⟨last, hstep, hpure⟩ := foldlM_step_cons.1 hlast
  cases hpure
  have ho : t.Open before := open_of_walk hbefore
  obtain ⟨hdir, ⟨-, rfl⟩ | ⟨-, rfl⟩ | ⟨hne, -⟩⟩ := step_eq_ok hstep
  · exact hdir
  · exact entry_dropLast ho hdir
  · simp [hne] at hname

/-- What is no directory has a name. -/
theorem namesFile_of_walk (h : t.walk path (Path.names path) = .ok place)
    (hplace : t.entry place ≠ .directory) : Path.NamesFile path := by
  intro hpoints
  obtain ⟨before, last, hnames⟩ := (List.eq_nil_or_concat (Path.names path)).resolve_left
    (by simp [Path.names, Path.pieces_ne_nil])
  rw [List.concat_eq_append] at hnames
  rw [hnames] at h hpoints
  rw [List.getLastD_concat] at hpoints
  exact hplace (entry_of_walk_points hpoints h)

/-! ### Reading and writing a file -/

theorem foldlM_step_put (hp : t.entry place ≠ .directory) {start : List String}
    (h : names.foldlM t.step start = .ok place') :
    names.foldlM (t.put place text).step start = .ok place' := by
  induction names generalizing start with
  | nil => exact h
  | cons name names ih =>
    obtain ⟨next, hnext, hrest⟩ := foldlM_step_cons.1 h
    have hdir : t.entry start = .directory := (step_eq_ok hnext).1
    have hput : (t.put place text).entry start = .directory :=
      entry_put (fun heq => hp (heq ▸ hdir)) hdir
    exact foldlM_step_cons.2 ⟨next, step_congr (hdir.trans hput.symm) ▸ hnext, ih hrest⟩

/-- A path leads to the same place after a file has been written. -/
theorem walk_put (hp : t.entry place ≠ .directory) (h : t.walk path names = .ok place') :
    (t.put place text).walk path names = .ok place' := by
  unfold walk
  rw [home_put]
  exact foldlM_step_put hp h

/-- A file is written where the path leads, and no directory is there. -/
theorem write_eq_ok (h : t.write path text = .ok t') :
    ∃ place, t.walk path (Path.names path) = .ok place ∧ t.entry place ≠ .directory ∧
      t' = t.put place text := by
  obtain ⟨place, hwalk, hrest⟩ := except_bind_eq_ok.1 h
  by_cases hlen : (Path.withoutSlashes (Path.names path)).length < (Path.names path).length
  · simp only [if_pos hlen] at hrest
    cases hrest
  · rw [Path.withoutSlashes_of_length hlen] at hwalk
    simp only [if_neg hlen] at hrest
    split at hrest
    · rename_i content hentry
      exact ⟨place, hwalk, by simp [hentry], (Except.ok.inj hrest).symm⟩
    · rename_i hentry
      exact ⟨place, hwalk, by simp [hentry], (Except.ok.inj hrest).symm⟩
    · cases hrest

/-- A file that can be read lies where the path leads. -/
theorem read_eq_ok (h : t.read path = .ok text) :
    ∃ place, t.walk path (Path.names path) = .ok place ∧ t.entry place = .file (.text text) := by
  obtain ⟨place, hwalk, hrest⟩ := except_bind_eq_ok.1 h
  refine ⟨place, hwalk, ?_⟩
  split at hrest
  · rename_i found hentry
    cases hrest
    exact hentry
  all_goals cases hrest

theorem run_write_ok (h : t.write path text = .ok t') :
    (fileSystem.write path text).run t = (.ok (), t') := by
  simp only [fileSystem, StateT.run_bind, StateT.run_get, pure_bind, h]
  rfl

theorem run_write_error {e : FileError} (h : t.write path text = .error e) :
    (fileSystem.write path text).run t = (.error e, t) := by
  simp only [fileSystem, StateT.run_bind, StateT.run_get, pure_bind, h]
  rfl

/-- **A tree of files has its files at places.** -/
def places : fileSystem.Places (List String) where
  place? t path := (t.walk path (Path.names path)).toOption
  file? := file?
  read_state _ _ := rfl
  read_ok := by
    intro path t text h
    obtain ⟨place, hwalk, hentry⟩ := read_eq_ok h
    exact ⟨namesFile_of_walk hwalk (by simp [hentry]), place, by rw [hwalk]; rfl,
      (entry_eq_file.1 hentry).2⟩
  write_ok := by
    intro path text t t' h
    cases hwrite : t.write path text with
    | error e => cases (run_write_error hwrite).symm.trans h
    | ok t₁ =>
      cases (run_write_ok hwrite).symm.trans h
      obtain ⟨place, hwalk, hentry, rfl⟩ := write_eq_ok hwrite
      exact ⟨namesFile_of_walk hwalk hentry, place, by rw [hwalk]; rfl,
        by rw [walk_put hentry hwalk]; rfl, file?_put_self, fun other => file?_put_of_ne⟩
  write_error := by
    intro path text t t' e h place
    cases hwrite : t.write path text with
    | error e' =>
      cases (run_write_error hwrite).symm.trans h
      rfl
    | ok t₁ => cases (run_write_ok hwrite).symm.trans h

end FileTree

end GLang
