-- SUMMARY: What shell patterns match: concatenation, patterns whose end is open, and the pieces that `translate` is made of.
import LocalRag.Base.PurePath

/-!
# Globs

A pattern whose last `*` is followed by nothing but `?` matches every text that begins
with one it matches. Any other pattern says something about a character near the end: a
text that ends in a character which the last element of the pattern does not accept is
matched only where a `*` follows that element, and then so is what comes before it.
-/

namespace PyPath

open PyText

def Glob.isStar : Glob → Bool
  | .star => true
  | .one _ => false

/-- Whether an element that matches one character accepts this one. -/
def Glob.accepts : Glob → Char → Bool
  | .star, _ => false
  | .one accepts, c => accepts c

/-- `*`, or an element such as `?` that accepts every character. -/
def Glob.TakesAny : Glob → Prop
  | .star => True
  | .one accepts => ∀ c, accepts c = true

/-- After its last `*` the pattern does not say anything about the characters. -/
def EndsOpen (gs : List Glob) : Prop := ∃ front back, gs = front ++ .star :: back ∧ ∀ g ∈ back, g.TakesAny

/-- The last element that is not a `*` accepts the character. -/
def lastAccepts : List Glob → Char → Bool
  | [], _ => false
  | g :: gs, c => if gs.all Glob.isStar then g.accepts c else lastAccepts gs c

variable {gs hs : List Glob} {g : Glob} {t u : Text} {c : Char}

/-! ## Matching -/

theorem globMatches_star_iff : globMatches (.star :: gs) t = true ↔ ∃ u v, t = u ++ v ∧ globMatches gs v = true := by
  rw [globMatches, List.any_eq_true]
  constructor
  · rintro ⟨v, hv, hmatch⟩
    obtain ⟨u, rfl⟩ := (List.mem_tails ..).mp hv
    exact ⟨u, v, rfl, hmatch⟩
  · rintro ⟨u, v, rfl, hmatch⟩
    exact ⟨v, (List.mem_tails ..).mpr (List.suffix_append u v), hmatch⟩

theorem globMatches_append_iff : globMatches (gs ++ hs) t = true ↔
    ∃ u v, t = u ++ v ∧ globMatches gs u = true ∧ globMatches hs v = true := by
  induction gs generalizing t with
  | nil =>
    constructor
    · intro h
      exact ⟨[], t, rfl, rfl, h⟩
    · rintro ⟨u, v, rfl, hu, hv⟩
      obtain rfl : u = [] := List.isEmpty_iff.mp hu
      exact hv
  | cons g gs ih =>
    cases g with
    | star =>
      rw [List.cons_append, globMatches_star_iff]
      constructor
      · rintro ⟨skipped, rest, rfl, hrest⟩
        obtain ⟨u, v, rfl, hu, hv⟩ := ih.mp hrest
        exact ⟨skipped ++ u, v, by rw [List.append_assoc], globMatches_star_iff.mpr ⟨skipped, u, rfl, hu⟩, hv⟩
      · rintro ⟨u, v, rfl, hu, hv⟩
        obtain ⟨skipped, rest, rfl, hrest⟩ := globMatches_star_iff.mp hu
        exact ⟨skipped, rest ++ v, by rw [List.append_assoc], ih.mpr ⟨rest, v, rfl, hrest, hv⟩⟩
    | one accepts =>
      cases t with
      | nil =>
        constructor
        · nofun
        · rintro ⟨u, v, huv, hu, hv⟩
          obtain ⟨rfl, rfl⟩ := List.append_eq_nil_iff.mp huv.symm
          cases hu
      | cons c t =>
        rw [List.cons_append, globMatches, Bool.and_eq_true, ih]
        constructor
        · rintro ⟨hc, u, v, rfl, hu, hv⟩
          exact ⟨c :: u, v, rfl, by rw [globMatches, hc, hu]; rfl, hv⟩
        · rintro ⟨u, v, huv, hu, hv⟩
          match u, hu with
          | d :: u, hu =>
            obtain ⟨rfl, rfl⟩ := List.cons.inj huv
            obtain ⟨hc, hu⟩ := Bool.and_eq_true_iff.mp hu
            exact ⟨hc, u, v, rfl, hu, hv⟩

/-- Elements that take any character match by the length of the text. -/
theorem globMatches_of_length_eq (hany : ∀ g ∈ gs, g.TakesAny) (hlength : t.length = u.length)
    (h : globMatches gs t = true) : globMatches gs u = true := by
  induction gs generalizing t u with
  | nil =>
    obtain rfl : t = [] := List.isEmpty_iff.mp h
    exact List.isEmpty_iff.mpr (List.length_eq_zero_iff.mp hlength.symm)
  | cons g gs ih =>
    have hrest := List.forall_mem_of_forall_mem_cons hany
    cases g with
    | star =>
      obtain ⟨a, b, rfl, hb⟩ := globMatches_star_iff.mp h
      rw [List.length_append] at hlength
      have hb' : globMatches gs (u.drop a.length) = true := ih hrest (by rw [List.length_drop]; omega) hb
      exact globMatches_star_iff.mpr ⟨u.take a.length, _, (List.take_append_drop ..).symm, hb'⟩
    | one accepts =>
      match t, u, h with
      | c :: t, d :: u, h =>
        have hd : accepts d = true := hany _ List.mem_cons_self d
        have hu : globMatches gs u = true :=
          ih hrest (Nat.succ_inj.mp hlength) (Bool.and_eq_true_iff.mp h).2
        rw [globMatches, hd, hu]
        rfl

/-- A pattern whose end is open matches whatever begins with what it matches. -/
theorem EndsOpen.globMatches_append (hopen : EndsOpen gs) (h : globMatches gs t = true) (s : Text) :
    globMatches gs (t ++ s) = true := by
  obtain ⟨front, back, rfl, hany⟩ := hopen
  obtain ⟨u, v, rfl, hu, hv⟩ := globMatches_append_iff.mp h
  obtain ⟨a, b, rfl, hb⟩ := globMatches_star_iff.mp hv
  -- The star takes so much more that as many characters as before are left for the rest.
  refine globMatches_append_iff.mpr ⟨u, (a ++ b) ++ s, List.append_assoc .., hu, ?_⟩
  refine globMatches_star_iff.mpr ⟨((a ++ b) ++ s).take (a.length + s.length),
    ((a ++ b) ++ s).drop (a.length + s.length), (List.take_append_drop ..).symm, globMatches_of_length_eq hany ?_ hb⟩
  simp only [List.length_drop, List.length_append]
  omega

theorem endsOpen_append_star : EndsOpen (gs ++ [.star]) := ⟨gs, [], rfl, nofun⟩

theorem lastAccepts_append_star : lastAccepts (gs ++ [.star]) c = lastAccepts gs c := by
  induction gs with
  | nil => rfl
  | cons g gs ih => simp [lastAccepts, ih, Glob.isStar]

theorem lastAccepts_append_one {accepts : Char → Bool} : lastAccepts (gs ++ [.one accepts]) c = accepts c := by
  induction gs with
  | nil => rfl
  | cons g gs ih => simp [lastAccepts, ih, Glob.isStar]

theorem lastAccepts_cons (hg : g.accepts c = false) (hgs : lastAccepts gs c = false) :
    lastAccepts (g :: gs) c = false := by
  rw [lastAccepts]
  split
  · exact hg
  · exact hgs

/-- Where the last element does not accept the last character, a `*` takes it. -/
theorem endsOpen_of_append_singleton (hlast : lastAccepts gs c = false) (h : globMatches gs (t ++ [c]) = true) :
    EndsOpen gs ∧ globMatches gs t = true := by
  induction gs using List.reverseRecOn with
  | nil => simp [globMatches] at h
  | append_singleton gs g ih =>
    obtain ⟨u, v, huv, hu, hv⟩ := globMatches_append_iff.mp h
    cases g with
    | one accepts =>
      match v, hv with
      | [d], hv =>
        obtain ⟨rfl, hcd⟩ := List.append_inj' huv rfl
        obtain rfl : c = d := by simpa using hcd
        rw [lastAccepts_append_one] at hlast
        simp [globMatches, hlast] at hv
      | d :: e :: v, hv => simp [globMatches] at hv
    | star =>
      refine ⟨endsOpen_append_star, ?_⟩
      rcases List.eq_nil_or_concat v with rfl | ⟨v, d, rfl⟩
      · -- The star takes nothing, so an earlier one takes the character.
        rw [List.append_nil] at huv
        have ht := (ih (lastAccepts_append_star ▸ hlast) (huv ▸ hu)).2
        exact globMatches_append_iff.mpr ⟨t, [], (List.append_nil t).symm, ht, rfl⟩
      · rw [List.concat_eq_append, ← List.append_assoc] at huv
        obtain ⟨rfl, -⟩ := List.append_inj' huv rfl
        refine globMatches_append_iff.mpr ⟨u, v, rfl, hu, ?_⟩
        exact globMatches_star_iff.mpr ⟨v, [], (List.append_nil v).symm, rfl⟩

/-! ## Translation -/

variable {pat suf : List Char}

/-- How many characters of a set cannot close it. -/
def setLead : List Char → ℕ
  | '!' :: ']' :: _ => 2
  | '!' :: _ => 1
  | ']' :: _ => 1
  | _ => 0

theorem setLength_eq : setLength pat = if ']' ∈ pat.drop (setLead pat) then
    some (setLead pat + (pat.drop (setLead pat)).idxOf ']') else none := rfl

theorem setLead_cons_cons (c d : Char) (pat suf : List Char) : setLead (c :: d :: pat) = setLead (c :: d :: suf) := by
  by_cases hbang : c = '!'
  · by_cases hclose : d = ']'
    · rw [hbang, hclose, setLead, setLead]
    · have hset (rest : List Char) : setLead ('!' :: d :: rest) = 1 := by
        rw [setLead]
        simpa using hclose
      rw [hbang, hset, hset]
  · unfold setLead
    split <;> simp_all

theorem setLead_le : setLead pat ≤ pat.length := by
  unfold setLead
  split <;> simp

theorem setLength_eq_none (h : ']' ∉ pat) : setLength pat = none :=
  if_neg fun hmem => h (List.mem_of_mem_drop hmem)

theorem setLength_append (hsuf : ']' ∉ suf) : setLength (pat ++ suf) = setLength pat := by
  match pat with
  | [] => rw [List.nil_append, setLength_eq_none hsuf, setLength_eq_none List.not_mem_nil]
  | [c] =>
    by_cases hc : c = ']'
    · subst hc
      simp [setLength, hsuf]
    · have hpat : ']' ∉ [c] := by simpa [eq_comm] using hc
      have hall : ']' ∉ [c] ++ suf := by simp [hsuf, Ne.symm hc]
      rw [setLength_eq_none hall, setLength_eq_none hpat]
  | c :: d :: pat =>
    have hlead : setLead (c :: d :: pat ++ suf) = setLead (c :: d :: pat) := setLead_cons_cons c d _ _
    rw [setLength_eq, setLength_eq, hlead, List.drop_append_of_le_length setLead_le]
    by_cases hmem : ']' ∈ (c :: d :: pat).drop (setLead (c :: d :: pat))
    · rw [if_pos (List.mem_append_left _ hmem), if_pos hmem, List.idxOf_append_of_mem hmem]
    · rw [if_neg (by simp [hmem, hsuf]), if_neg hmem]

theorem setLength_lt {n : ℕ} (h : setLength pat = some n) : n < pat.length := by
  rw [setLength_eq] at h
  by_cases hmem : ']' ∈ pat.drop (setLead pat)
  · rw [if_pos hmem] at h
    have hn := Option.some.inj h
    have hidx := List.idxOf_lt_length_of_mem hmem
    rw [List.length_drop] at hidx
    omega
  · rw [if_neg hmem] at h
    cases h

/-- What follows a pattern and closes no set is translated by itself. -/
theorem translate_append (hsuf : ']' ∉ suf) {skip : ℕ} (hskip : skip ≤ pat.length) :
    translate (pat ++ suf) skip = translate pat skip ++ translate suf 0 := by
  induction pat generalizing skip with
  | nil => rw [Nat.le_zero.mp hskip]; rfl
  | cons c pat ih =>
    rw [List.cons_append]
    cases skip with
    | succ skip => rw [translate, translate, ih (Nat.le_of_succ_le_succ hskip)]
    | zero =>
      have hrest := ih (Nat.zero_le _)
      by_cases hset : c = '['
      · subst hset
        rw [translate, translate, setLength_append hsuf]
        cases hlength : setLength pat with
        | none => rw [hrest]; rfl
        | some n =>
          have hlt := setLength_lt hlength
          dsimp only
          rw [List.take_append_of_le_length hlt.le, ih hlt]
          rfl
      · by_cases hstar : c = '*'
        · subst hstar
          rw [translate, translate, hrest]
          rfl
        · by_cases hany : c = '?'
          · subst hany
            rw [translate, translate, hrest]
            rfl
          · rw [translate, translate, hrest]
            · rfl
            all_goals assumption

end PyPath
