-- SUMMARY: When an ignored directory hides everything below it: the patterns that are inherited, and those that match the directory only.
import LocalRag.Base.Globs
import LocalRag.Common.Paths

/-!
# Ignored directories

A pattern that matches a component of a path matches every path below. A pattern that
matches the text of a path is inherited where its end is open, as it is in `*/p/*`; one
that matches the path as a whole, such as an absolute path, says nothing of what is
below.
-/

namespace LocalRag

open PyText PyPath

/-! ## Paths below a directory -/

/-- A component of a path as `pathlib` has it. -/
def ValidName (name : Name) : Prop := name ≠ [] ∧ '/' ∉ name ∧ name ≠ ['.']

/-- What the text of every path below an absolute directory begins with. -/
def dirText (names : List Name) : Text := '/' :: names.flatMap (· ++ ['/'])

/-- An ignored directory hides what is below it. -/
def IgnoredBelow (patterns : List Text) (names : List Name) : Prop :=
  matchesIgnorePattern ⟨true, names⟩ patterns = true →
    ∀ below ≠ [], (∀ name ∈ below, ValidName name) → matchesIgnorePattern ⟨true, names ++ below⟩ patterns = true

/-- The end of the pattern is open and it matches every longer text by one character. -/
def OpensBelow (pattern text : Text) : Prop :=
  EndsOpen (translate pattern 0) ∧ ∀ c, fnmatch (text ++ [c]) pattern = true

/-- The pattern matches a component of the directory, or one of the texts that are tried
for it matches whatever is below. -/
def HidesBelow (pattern : Text) (names : List Name) : Prop :=
  let normalized := forwardSlashes pattern
  let text := forwardSlashes (dirText names)
  (∃ part ∈ PurePath.parts ⟨true, names⟩, part = pattern ∨ fnmatch part pattern = true) ∨
  OpensBelow pattern (dirText names) ∨
  '/' ∈ normalized ∧
    (OpensBelow normalized text ∨ OpensBelow (['*', '/'] ++ normalized) text ∨
      OpensBelow (['*', '/'] ++ normalized ++ ['/', '*']) text)

/-- A character of names that the last element of no pattern accepts. -/
def RejectedAtEnd (patterns : List Text) (c : Char) : Prop :=
  (c ≠ '/' ∧ c ≠ '\\' ∧ c ≠ '.') ∧ ∀ pattern ∈ patterns,
    lastAccepts (translate pattern 0) c = false ∧ lastAccepts (translate (forwardSlashes pattern) 0) c = false

variable {pattern text : Text} {patterns : List Text} {names below : List Name} {c : Char}

theorem str_below (hbelow : below ≠ []) :
    PurePath.str ⟨true, names ++ below⟩ = dirText names ++ join ['/'] below := by
  have hjoin : join ['/'] (names ++ below) = names.flatMap (· ++ ['/']) ++ join ['/'] below := by
    induction names with
    | nil => rfl
    | cons name names ih =>
      rw [List.cons_append, join_cons_of_ne_nil _ _ (List.append_ne_nil_of_right_ne_nil _ hbelow), ih,
        List.flatMap_cons]
      simp only [List.append_assoc]
  rw [PurePath.str, if_pos rfl, hjoin]
  rfl

theorem dirText_eq (hnames : names ≠ []) : dirText names = PurePath.str ⟨true, names⟩ ++ ['/'] := by
  have hstr : PurePath.str ⟨true, names ++ [[]]⟩ = dirText names ++ join ['/'] [[]] :=
    str_below (List.cons_ne_nil _ _)
  rw [join_singleton, List.append_nil] at hstr
  rw [← hstr, PurePath.str, PurePath.str, if_pos rfl, if_pos rfl]
  dsimp only
  rw [join_append_of_ne_nil _ hnames (List.cons_ne_nil _ _), join_singleton, List.append_nil, List.cons_append]

theorem forwardSlashes_append (t u : Text) : forwardSlashes (t ++ u) = forwardSlashes t ++ forwardSlashes u :=
  List.map_append

theorem parts_below : PurePath.parts ⟨true, names ++ below⟩ = PurePath.parts ⟨true, names⟩ ++ below := rfl

/-- The text of a path below begins with the directory's, and goes on. -/
theorem join_ne_nil (hbelow : below ≠ []) (hvalid : ∀ name ∈ below, ValidName name) : join ['/'] below ≠ [] := by
  obtain ⟨name, rest, rfl⟩ := List.exists_cons_of_ne_nil hbelow
  have hname : name ≠ [] := (hvalid name List.mem_cons_self).1
  cases rest with
  | nil => rwa [join_singleton]
  | cons => rw [join_cons_of_ne_nil _ _ (List.cons_ne_nil _ _)]; simp [hname]

/-! ## What one pattern matches -/

theorem patternMatches_iff {path : PurePath} :
    patternMatches pattern path.parts path.str (forwardSlashes path.str) = true ↔
      (∃ part ∈ path.parts, part = pattern ∨ fnmatch part pattern = true) ∨
      fnmatch path.str pattern = true ∨
      '/' ∈ forwardSlashes pattern ∧
        (fnmatch (forwardSlashes path.str) (forwardSlashes pattern) = true ∨
          fnmatch (forwardSlashes path.str) (['*', '/'] ++ forwardSlashes pattern) = true ∨
          fnmatch (forwardSlashes path.str) (['*', '/'] ++ forwardSlashes pattern ++ ['/', '*']) = true) := by
  simp only [patternMatches, Bool.or_eq_true, Bool.and_eq_true, decide_eq_true_eq, List.any_eq_true, or_assoc]
  rw [← or_assoc]
  refine or_congr ?_ Iff.rfl
  constructor
  · rintro (hmem | ⟨part, hpart, hmatch⟩)
    · exact ⟨pattern, hmem, .inl rfl⟩
    · exact ⟨part, hpart, .inr hmatch⟩
  · rintro ⟨part, hpart, rfl | hmatch⟩
    · exact .inl hpart
    · exact .inr ⟨part, hpart, hmatch⟩

/-- The pattern for what is inside a directory of any depth is the one for the directory,
a slash and a star. -/
theorem translate_inside (pattern : Text) : translate (['*', '/'] ++ pattern ++ ['/', '*']) 0 =
    (translate (['*', '/'] ++ pattern) 0 ++ [.one (· == '/')]) ++ [.star] := by
  rw [translate_append (by decide) (Nat.zero_le _), List.append_assoc]
  rfl

theorem OpensBelow.fnmatch (h : OpensBelow pattern text) {rest : Text} (hrest : rest ≠ []) :
    PyPath.fnmatch (text ++ rest) pattern = true := by
  obtain ⟨c, rest, rfl⟩ := List.exists_cons_of_ne_nil hrest
  rw [List.append_cons]
  exact h.1.globMatches_append (h.2 c) rest

/-- A pattern whose last element does not accept the last character is open before it. -/
theorem opensBelow_of_fnmatch (hlast : lastAccepts (translate pattern 0) c = false)
    (h : PyPath.fnmatch (text ++ [c]) pattern = true) : OpensBelow pattern text := by
  obtain ⟨hopen, htext⟩ := endsOpen_of_append_singleton hlast h
  exact ⟨hopen, fun d => hopen.globMatches_append htext [d]⟩

/-! ## Inherited patterns -/

/-- A pattern that covers a directory matches every path below it. -/
theorem patternMatches_below (hhides : HidesBelow pattern names) (hbelow : below ≠ [])
    (hvalid : ∀ name ∈ below, ValidName name) :
    let path : PurePath := ⟨true, names ++ below⟩
    patternMatches pattern path.parts path.str (forwardSlashes path.str) = true := by
  intro path
  have hrest := join_ne_nil hbelow hvalid
  have hslashed : forwardSlashes (join ['/'] below) ≠ [] := by
    simpa [forwardSlashes] using hrest
  rw [patternMatches_iff, str_below hbelow, forwardSlashes_append]
  rcases hhides with ⟨part, hpart, hmatch⟩ | hwhole | ⟨hslash, hopen | hopen | hopen⟩
  · exact .inl ⟨part, List.mem_append_left _ hpart, hmatch⟩
  · exact .inr (.inl (hwhole.fnmatch hrest))
  · exact .inr (.inr ⟨hslash, .inl (hopen.fnmatch hslashed)⟩)
  · exact .inr (.inr ⟨hslash, .inr (.inl (hopen.fnmatch hslashed))⟩)
  · exact .inr (.inr ⟨hslash, .inr (.inr (hopen.fnmatch hslashed))⟩)

theorem ignoredBelow_of_hidesBelow (h : ∃ pattern ∈ patterns, HidesBelow pattern names) :
    IgnoredBelow patterns names := by
  obtain ⟨pattern, hpattern, hhides⟩ := h
  intro _ below hbelow hvalid
  exact List.any_eq_true.mpr ⟨pattern, hpattern, patternMatches_below hhides hbelow hvalid⟩

/-- A pattern that matches the end of the directory's path, or something above it, hides
everything below. -/
theorem hidesBelow_of_relative (hslash : '/' ∈ forwardSlashes pattern) (hnames : names ≠ [])
    (h : fnmatch (forwardSlashes (PurePath.str ⟨true, names⟩)) (['*', '/'] ++ forwardSlashes pattern) = true ∨
      fnmatch (forwardSlashes (PurePath.str ⟨true, names⟩))
        (['*', '/'] ++ forwardSlashes pattern ++ ['/', '*']) = true) :
    HidesBelow pattern names := by
  have hopen : EndsOpen (translate (['*', '/'] ++ forwardSlashes pattern ++ ['/', '*']) 0) :=
    translate_inside _ ▸ endsOpen_append_star
  have htext : forwardSlashes (dirText names) = forwardSlashes (PurePath.str ⟨true, names⟩) ++ ['/'] := by
    rw [dirText_eq hnames, forwardSlashes_append]
    rfl
  refine .inr (.inr ⟨hslash, .inr (.inr ⟨hopen, fun c => ?_⟩)⟩)
  rw [htext, List.append_assoc]
  rcases h with hend | hinside
  · rw [fnmatch, translate_inside, List.append_assoc]
    refine globMatches_append_iff.mpr ⟨_, _, rfl, hend, ?_⟩
    exact globMatches_star_iff.mpr ⟨[c], [], rfl, rfl⟩
  · exact hopen.globMatches_append hinside _

/-! ## Patterns that match the directory only -/

/-- A one-character name that the last element of a pattern does not accept is matched
only by a pattern that matches every name. -/
theorem fnmatch_of_fnmatch_singleton (hlast : lastAccepts (translate pattern 0) c = false)
    (h : fnmatch [c] pattern = true) (t : Text) : fnmatch t pattern = true := by
  obtain ⟨hopen, hempty⟩ := endsOpen_of_append_singleton (t := []) hlast h
  exact hopen.globMatches_append hempty t

theorem fnmatch_self_singleton (c : Char) : fnmatch [c] [c] = true := by
  by_cases hstar : c = '*'
  · rw [hstar]; decide
  · by_cases hany : c = '?'
    · rw [hany]; decide
    · by_cases hset : c = '['
      · rw [hset]; decide
      · simp [fnmatch, PyPath.translate, globMatches]

theorem lastAccepts_relative (hlast : lastAccepts (translate pattern 0) c = false) (hc : c ≠ '/') :
    lastAccepts (translate (['*', '/'] ++ pattern) 0) c = false ∧
      lastAccepts (translate (['*', '/'] ++ pattern ++ ['/', '*']) 0) c = false := by
  have hslash : (Glob.one (· == '/')).accepts c = false := beq_false_of_ne hc
  constructor
  · exact lastAccepts_cons rfl (lastAccepts_cons hslash hlast)
  · rw [translate_inside, lastAccepts_append_star, lastAccepts_append_one]
    exact hslash

/-- What matches the path of a file with a rejected name covers the directory. -/
theorem hidesBelow_of_patternMatches (hc : RejectedAtEnd patterns c) (hpattern : pattern ∈ patterns)
    (h : patternMatches pattern (PurePath.parts ⟨true, names ++ [[c]]⟩) (PurePath.str ⟨true, names ++ [[c]]⟩)
      (forwardSlashes (PurePath.str ⟨true, names ++ [[c]]⟩)) = true) : HidesBelow pattern names := by
  obtain ⟨⟨hslash, hback, -⟩, hreject⟩ := hc
  obtain ⟨hlast, hnormalized⟩ := hreject pattern hpattern
  obtain ⟨hrelative, hinside⟩ := lastAccepts_relative hnormalized hslash
  have hslashed : forwardSlashes [c] = [c] := by simp [forwardSlashes, hback]
  rw [patternMatches_iff, str_below (List.cons_ne_nil _ _), join_singleton, forwardSlashes_append, hslashed] at h
  rcases h with ⟨part, hpart, hmatch⟩ | hwhole | ⟨hmem, hopen | hopen | hopen⟩
  · rcases List.mem_append.mp (parts_below ▸ hpart) with hpart | hpart
    · exact .inl ⟨part, hpart, hmatch⟩
    · -- The pattern matches the new component, so it matches every component.
      obtain rfl := List.mem_singleton.mp hpart
      have hself : fnmatch [c] pattern = true := by
        rcases hmatch with rfl | hmatch
        · exact fnmatch_self_singleton c
        · exact hmatch
      exact .inl ⟨['/'], List.mem_cons_self, .inr (fnmatch_of_fnmatch_singleton hlast hself _)⟩
  · exact .inr (.inl (opensBelow_of_fnmatch hlast hwhole))
  · exact .inr (.inr ⟨hmem, .inl (opensBelow_of_fnmatch hnormalized hopen)⟩)
  · exact .inr (.inr ⟨hmem, .inr (.inl (opensBelow_of_fnmatch hrelative hopen))⟩)
  · exact .inr (.inr ⟨hmem, .inr (.inr (opensBelow_of_fnmatch hinside hopen))⟩)

theorem hidesBelow_of_ignoredBelow (hc : RejectedAtEnd patterns c) (h : IgnoredBelow patterns names)
    (hignored : matchesIgnorePattern ⟨true, names⟩ patterns = true) :
    ∃ pattern ∈ patterns, HidesBelow pattern names := by
  have hvalid : ValidName [c] := by
    refine ⟨List.cons_ne_nil _ _, fun hmem => hc.1.1 (List.mem_singleton.mp hmem).symm, fun hdot => hc.1.2.2 ?_⟩
    exact (List.cons.inj hdot).1
  have hbelow := h hignored [[c]] (List.cons_ne_nil _ _) (by simpa using hvalid)
  obtain ⟨pattern, hpattern, hmatch⟩ := List.any_eq_true.mp hbelow
  exact ⟨pattern, hpattern, hidesBelow_of_patternMatches hc hpattern hmatch⟩

/-- An ignored directory hides what is below it where it is not matched only as a whole,
and only there unless the patterns accept every last character between them. -/
theorem ignoredBelow_iff (patterns : List Text) (names : List Name)
    (hignored : matchesIgnorePattern ⟨true, names⟩ patterns = true) :
    ((∃ pattern ∈ patterns, HidesBelow pattern names) → IgnoredBelow patterns names) ∧
      ((∃ c, RejectedAtEnd patterns c) →
        ((∃ pattern ∈ patterns, HidesBelow pattern names) ↔ IgnoredBelow patterns names)) := by
  refine ⟨ignoredBelow_of_hidesBelow, ?_⟩
  rintro ⟨c, hc⟩
  exact ⟨ignoredBelow_of_hidesBelow, fun h => hidesBelow_of_ignoredBelow hc h hignored⟩

theorem ignoredBelow_iff_sample : (∃ pattern ∈ ["/w/x".toList], HidesBelow pattern ["w".toList, "x".toList]) ↔
    IgnoredBelow ["/w/x".toList] ["w".toList, "x".toList] := by
  refine (ignoredBelow_iff _ _ (by decide)).2 ⟨'a', by decide, fun pattern hpattern => ?_⟩
  obtain rfl := List.mem_singleton.mp hpattern
  decide

/-- The absolute path of a directory does not hide the files in it. -/
theorem ignoredBelow_absolute : ¬ ∀ (patterns : List Text) (names : List Name),
    (∀ name ∈ names, ValidName name) → IgnoredBelow patterns names := by
  intro h
  have hbelow := h ["/w/x".toList] ["w".toList, "x".toList] (by simp [ValidName]) (by decide) ["f".toList]
    (by decide) (by simp [ValidName])
  revert hbelow
  decide

end LocalRag
