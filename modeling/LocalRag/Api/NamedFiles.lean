-- SUMMARY: When `_extract_filenames` keeps every indexed file that the question names.
import LocalRag.Api.Retrieval

/-!
# Files that a question names

`_extract_filenames` tries the tokens of the question in their order and returns at the
first that matches a filename, exactly or closely. The files that later tokens name are
not in its result, and the filter of the search excludes them.
-/

namespace LocalRag.Retrieval

open PyText Ranking Difflib

/-- The filter lets a filename pass. -/
def passesFilter (queryFilter : Option (List Text)) (filename : Text) : Prop :=
  ∀ filenames ∈ queryFilter, filename ∈ filenames

/-- The keys of `by_lower`. -/
def lowerNames (env : Env) (names : List Text) : List Text := distinct (names.map env.lower)

/-- Every indexed filename that is, ignoring case, a token of the question is in the result, and the
filter lets it pass. -/
def KeepsNamed (env : Env) (api : Api) (question : Text) : Prop :=
  ∀ filename ∈ knownFilenames api, env.lower filename ∈ filenameCandidates env question →
    filename ∈ extractFilenames env api question ∧
      passesFilter (filenameFilter (extractFilenames env api question)) filename

/-- The question names one file at most, ignoring case; and where the first token that matches anything is
no name but close to one, every name after it is that one. -/
structure NamesOneFile (keys candidates : List Text) : Prop where
  exact : ∀ c ∈ candidates, ∀ c' ∈ candidates, c ∈ keys → c' ∈ keys → c = c'
  fuzzy : ∀ before c after key, candidates = before ++ c :: after →
    (∀ b ∈ before, b ∉ keys ∧ closeKey keys b = none) → c ∉ keys → closeKey keys c = some key →
    ∀ c' ∈ after, c' ∈ keys → c' = key

variable {env : Env} {api : Api} {names keys : List Text} {c key question : Text}

/-! ## The dictionary -/

theorem lookup_map_of_mem {f : Text → List Text} (h : c ∈ keys) :
    (keys.map fun k => (k, f k)).lookup c = some (f c) := by
  induction keys with
  | nil => cases h
  | cons k keys ih =>
    rw [List.map_cons, List.lookup_cons]
    by_cases hk : c = k
    · rw [hk, beq_self_eq_true]
    · rw [beq_eq_false_iff_ne.mpr hk]
      exact ih ((List.mem_cons.mp h).resolve_left hk)

theorem lookup_map_of_notMem {f : Text → List Text} (h : c ∉ keys) :
    (keys.map fun k => (k, f k)).lookup c = none := by
  rw [List.lookup_eq_none_iff]
  intro e he
  obtain ⟨k, hk, rfl⟩ := List.mem_map.mp he
  rw [bne_iff_ne]
  rintro rfl
  exact h hk

/-- `by_lower` groups the names by their lower case. -/
theorem byLower_eq (env : Env) (names : List Text) : byLower env names =
    (lowerNames env names).map fun key => (key, names.filter fun name => env.lower name = key) := by
  induction names using List.reverseRecOn with
  | nil => rfl
  | append_singleton names name ih =>
    have hkeys : ((lowerNames env names).map fun key =>
        (key, names.filter fun name => env.lower name = key)).map Prod.fst = lowerNames env names := by
      rw [List.map_map]
      exact List.map_id _
    have hstep : byLower env (names ++ [name]) = appendTo (byLower env names) (env.lower name) name := by
      rw [byLower, List.foldl_append]
      rfl
    rw [hstep, ih, appendTo, hkeys]
    by_cases hmem : env.lower name ∈ lowerNames env names
    · have hold : lowerNames env (names ++ [name]) = lowerNames env names := by
        rw [lowerNames, List.map_append]
        exact firsts_append_old (by simpa using mem_distinct.mp hmem)
      rw [if_pos hmem, hold, List.map_map]
      refine List.map_congr_left fun key _ => ?_
      by_cases hkey : key = env.lower name
      · simp [hkey]
      · simp [hkey, Ne.symm hkey]
    · have hnew : lowerNames env (names ++ [name]) = lowerNames env names ++ [env.lower name] := by
        rw [lowerNames, List.map_append]
        exact firsts_append_new (by simpa using mt mem_distinct.mpr hmem)
      rw [if_neg hmem, hnew, List.map_append]
      congr 1
      · refine List.map_congr_left fun key hkey => ?_
        have hne : env.lower name ≠ key := fun heq => hmem (heq ▸ hkey)
        simp [hne]
      · have hnone : names.filter (fun n => env.lower n = env.lower name) = [] := by
          refine List.filter_eq_nil_iff.mpr fun n hn heq => hmem (mem_distinct.mpr ?_)
          rw [← of_decide_eq_true heq]
          exact List.mem_map_of_mem hn
        simp [hnone]

/-! ## The result -/

/-- What a token matches: the filename that it is, else the closest one. -/
def matchedKey (keys : List Text) (candidate : Text) : Option Text :=
  if candidate ∈ keys then some candidate else closeKey keys candidate

theorem closeKey_mem (h : closeKey keys c = some key) : key ∈ keys := by
  have hmem := (mem_of_mem_getCloseMatches (List.mem_of_mem_head? h)).1
  exact (List.mem_filter.mp hmem).1

theorem candidateFilenames_eq (env : Env) (names : List Text) (c : Text) :
    candidateFilenames (byLower env names) c =
      (matchedKey (lowerNames env names) c).map fun key => names.filter fun name => env.lower name = key := by
  have hkeys : (byLower env names).map Prod.fst = lowerNames env names := by
    rw [byLower_eq, List.map_map]
    exact List.map_id _
  rw [candidateFilenames, hkeys, byLower_eq, matchedKey]
  by_cases hc : c ∈ lowerNames env names
  · rw [lookup_map_of_mem hc, if_pos hc]
    rfl
  · rw [lookup_map_of_notMem hc, if_neg hc]
    cases hclose : closeKey (lowerNames env names) c with
    | none => rfl
    | some key =>
      rw [Option.map_some, Option.map_some, lookup_map_of_mem (closeKey_mem hclose)]
      rfl

/-- The result is the files of the first match. -/
theorem mem_extractFilenames {filename : Text} :
    filename ∈ extractFilenames env api question ↔ filename ∈ knownFilenames api ∧
      (filenameCandidates env question).findSome? (matchedKey (lowerNames env (knownFilenames api))) =
        some (env.lower filename) := by
  unfold extractFilenames
  dsimp only
  by_cases hnone : filenameCandidates env question = []
  · simp [hnone]
  rw [if_neg hnone]
  have hall : (filenameCandidates env question).findSome? (candidateFilenames (byLower env (knownFilenames api))) =
      ((filenameCandidates env question).findSome? (matchedKey (lowerNames env (knownFilenames api)))).map
        fun key => (knownFilenames api).filter fun name => env.lower name = key := by
    rw [List.map_findSome?, funext (candidateFilenames_eq env (knownFilenames api))]
    rfl
  rw [hall]
  cases (filenameCandidates env question).findSome? (matchedKey (lowerNames env (knownFilenames api))) with
  | none => simp
  | some key => simp [eq_comm]

theorem passesFilter_of_mem {filename : Text} (h : filename ∈ names) :
    passesFilter (filenameFilter names) filename := by
  intro filenames hfilenames
  rw [filenameFilter, if_neg (List.ne_nil_of_mem h)] at hfilenames
  rwa [← Option.mem_some_iff.mp hfilenames]

/-- The first token that matches anything matches what the question names. -/
theorem namesOneFile_iff {candidates : List Text} : NamesOneFile keys candidates ↔
    ∀ c ∈ candidates, c ∈ keys → candidates.findSome? (matchedKey keys) = some c := by
  constructor
  · rintro ⟨hexact, hfuzzy⟩ c hc hkey
    have hself : matchedKey keys c = some c := if_pos hkey
    cases hfound : candidates.findSome? (matchedKey keys) with
    | none => rw [List.findSome?_eq_none_iff.mp hfound c hc] at hself; cases hself
    | some key =>
      obtain ⟨before, x, after, hsplit, hx, hbefore⟩ := List.findSome?_eq_some_iff.mp hfound
      have hunmatched : ∀ b ∈ before, b ∉ keys ∧ closeKey keys b = none := by
        intro b hb
        have hnone := hbefore b hb
        unfold matchedKey at hnone
        split at hnone
        · cases hnone
        · next hb_key => exact ⟨hb_key, hnone⟩
      by_cases hx_key : x ∈ keys
      · have hxx : matchedKey keys x = some x := if_pos hx_key
        have hx_mem : x ∈ candidates := by simp [hsplit]
        rw [← Option.some.inj (hx.symm.trans hxx).symm, hexact c hc x hx_mem hkey hx_key]
      · have hclose : closeKey keys x = some key := by rwa [matchedKey, if_neg hx_key] at hx
        have hafter : c ∈ after := by
          rw [hsplit] at hc
          rcases List.mem_append.mp hc with hc | hc
          · exact absurd hkey (hunmatched c hc).1
          · exact (List.mem_cons.mp hc).resolve_left fun heq => hx_key (heq ▸ hkey)
        rw [hfuzzy before x after key hsplit hunmatched hx_key hclose c hafter hkey]
  · intro hfirst
    refine ⟨fun c hc c' hc' hkey hkey' => ?_, fun before c after key hsplit hbefore hc hclose c' hc' hkey' => ?_⟩
    · exact Option.some.inj ((hfirst c hc hkey).symm.trans (hfirst c' hc' hkey'))
    · have hfound : candidates.findSome? (matchedKey keys) = some key := by
        refine List.findSome?_eq_some_iff.mpr ⟨before, c, after, hsplit, ?_, fun b hb => ?_⟩
        · rw [matchedKey, if_neg hc, hclose]
        · rw [matchedKey, if_neg (hbefore b hb).1, (hbefore b hb).2]
      have hmem : c' ∈ candidates := by simp [hsplit, hc']
      exact Option.some.inj ((hfirst c' hmem hkey').symm.trans hfound)

/-- No file that the question names is filtered out if and only if the question names one file at most and
no earlier token leads to another. -/
theorem keepsNamed_iff (env : Env) (api : Api) (question : Text) : KeepsNamed env api question ↔
    NamesOneFile (lowerNames env (knownFilenames api)) (filenameCandidates env question) := by
  rw [namesOneFile_iff]
  constructor
  · intro hkeeps c hc hkey
    obtain ⟨filename, hknown, rfl⟩ := List.mem_map.mp (mem_distinct.mp hkey)
    exact (mem_extractFilenames.mp (hkeeps filename hknown hc).1).2
  · intro hfirst filename hknown hc
    have hkey : env.lower filename ∈ lowerNames env (knownFilenames api) :=
      mem_distinct.mpr (List.mem_map_of_mem hknown)
    have hmem := mem_extractFilenames.mpr ⟨hknown, hfirst _ hc hkey⟩
    exact ⟨hmem, passesFilter_of_mem hmem⟩

/-- The collection has the files `a.md` and `b.md`. -/
def twoFiles : Api where
  facet _ := some ["a.md".toList, "b.md".toList]
  embed _ := none
  queryPoints _ _ _ _ := none
  predict _ := none

/-- A question that names two files excludes the second. -/
theorem keepsNamed_first_only : ¬KeepsNamed Env.sample twoFiles "diff a.md b.md".toList := by
  intro h
  have hmem := (h "b.md".toList (by decide +kernel) (by decide +kernel)).1
  exact absurd hmem (by decide +kernel)

end LocalRag.Retrieval
