-- SUMMARY: Python's str methods on lists of characters (isspace, strip, split, splitlines, join) and what they do to the non-whitespace characters.
import Mathlib.Algebra.GroupWithZero.Nat
import Mathlib.Data.List.DropRight
import Mathlib.Data.List.Infix

/-!
# Python text

A text is a list of code points. The functions follow the documented behaviour
of the `str` methods of the same name. The lemmas are about `nw`, the text with
all whitespace removed: stripping, splitting at whitespace and joining with
whitespace do not change it.
-/

namespace PyText

abbrev Text := List Char

/-- Membership in a list of texts is decided by comparing texts. -/
instance lawfulBEq : LawfulBEq Text := inferInstance

/-- Bytes, read as Latin-1, are distinct characters. -/
theorem charOfByte_injective : Function.Injective fun b : UInt8 => Char.ofNat b.toNat := by
  have htoNat (b : UInt8) : (Char.ofNat b.toNat).toNat = b.toNat := by
    have hvalid : b.toNat.isValidChar := .inl (by have := b.toNat_lt; omega)
    rw [Char.ofNat, dif_pos hvalid]
    rfl
  intro a b hab
  exact UInt8.toNat_inj.mp ((htoNat a).symm.trans ((congrArg Char.toNat hab).trans (htoNat b)))

/-! ## Whitespace -/

/-- `str.isspace` of one character: the code points with bidirectional type
`WS`, `B` or `S`, or category `Zs`. -/
def isspace (c : Char) : Bool :=
  let n := c.toNat
  (0x09 ≤ n && n ≤ 0x0D) || (0x1C ≤ n && n ≤ 0x20) || n == 0x85 || n == 0xA0 ||
  n == 0x1680 || (0x2000 ≤ n && n ≤ 0x200A) || n == 0x2028 || n == 0x2029 ||
  n == 0x202F || n == 0x205F || n == 0x3000

/-- The text with its whitespace removed. -/
def nw (t : Text) : Text := t.filter (fun c => !isspace c)

@[simp] theorem nw_nil : nw [] = [] := rfl

@[simp] theorem nw_append (t u : Text) : nw (t ++ u) = nw t ++ nw u :=
  List.filter_append ..

theorem nw_cons (c : Char) (t : Text) : nw (c :: t) = nw [c] ++ nw t := nw_append [c] t

theorem nw_flatten (ts : List Text) : nw ts.flatten = (ts.map nw).flatten := by
  induction ts with
  | nil => rfl
  | cons t ts ih => simp [ih]

theorem nw_eq_nil_iff {t : Text} : nw t = [] ↔ ∀ c ∈ t, isspace c := by
  simp [nw, List.filter_eq_nil_iff]

theorem nw_eq_nil_of_infix {t u : Text} (h : t <:+: u) (hu : nw u = []) : nw t = [] :=
  nw_eq_nil_iff.mpr fun c hc => nw_eq_nil_iff.mp hu c (h.subset hc)

/-! ## strip -/

/-- `t.strip()`. -/
def strip (t : Text) : Text := (t.dropWhile isspace).rdropWhile isspace

theorem nw_dropWhile (t : Text) : nw (t.dropWhile isspace) = nw t := by
  induction t with
  | nil => rfl
  | cons c t ih =>
    rw [List.dropWhile_cons]
    split
    · next hc => rw [ih]; simp [nw, hc]
    · rfl

theorem nw_reverse (t : Text) : nw t.reverse = (nw t).reverse :=
  List.filter_reverse ..

theorem nw_rdropWhile (t : Text) : nw (t.rdropWhile isspace) = nw t := by
  rw [List.rdropWhile, nw_reverse, nw_dropWhile, nw_reverse, List.reverse_reverse]

@[simp] theorem nw_strip (t : Text) : nw (strip t) = nw t := by
  rw [strip, nw_rdropWhile, nw_dropWhile]

theorem strip_eq_nil_iff {t : Text} : strip t = [] ↔ nw t = [] := by
  constructor
  · intro h
    rw [← nw_strip, h, nw_nil]
  · intro h
    rw [strip, List.rdropWhile_eq_nil_iff]
    intro c hc
    exact nw_eq_nil_iff.mp h c ((List.dropWhile_sublist _).subset hc)

/-- Blanks in front of a text do not matter. -/
theorem strip_append_of_nw_nil {u : Text} (hu : nw u = []) (t : Text) :
    strip (u ++ t) = strip t := by
  rw [strip, List.dropWhile_append_of_pos (nw_eq_nil_iff.mp hu), strip]

theorem length_strip_le (t : Text) : (strip t).length ≤ t.length :=
  ((List.rdropWhile_prefix _ _).length_le).trans (List.dropWhile_sublist _).length_le

theorem dropWhile_strip (t : Text) : (strip t).dropWhile isspace = strip t := by
  refine List.dropWhile_eq_self_iff.mpr fun hlen => ?_
  have hne : strip t ≠ [] := List.length_pos_iff.mp hlen
  have hprefix : strip t <+: t.dropWhile isspace := List.rdropWhile_prefix _ _
  rw [List.getElem_zero, hprefix.head hne, List.head_dropWhile_not isspace]
  exact Bool.false_ne_true

theorem rdropWhile_strip (t : Text) : (strip t).rdropWhile isspace = strip t :=
  List.rdropWhile_idempotent _ _

theorem strip_strip (t : Text) : strip (strip t) = strip t := by
  rw [strip, dropWhile_strip, rdropWhile_strip]

/-- A longer text has a character that is no blank at either end. -/
theorem length_strip_le_one {t : Text} (h : (nw t).length ≤ 1) : (strip t).length ≤ 1 := by
  have hfront := dropWhile_strip t
  have hback := rdropWhile_strip t
  have hnw := nw_strip t
  generalize strip t = u at hfront hback hnw ⊢
  by_contra hlong
  rcases u with _ | ⟨a, rest⟩
  · exact hlong (Nat.zero_le 1)
  rcases rest.eq_nil_or_concat' with rfl | ⟨mid, b, rfl⟩
  · exact hlong (le_refl 1)
  have ha : isspace a = false := by
    simpa using List.dropWhile_eq_self_iff.mp hfront (Nat.succ_pos _)
  have hb : isspace b = false := by
    simpa using List.rdropWhile_eq_self_iff.mp hback (List.cons_ne_nil _ _)
  rw [← hnw] at h
  simp [nw, ha, hb] at h

theorem strip_eq_self {a b : Char} (ha : isspace a = false) (hb : isspace b = false) (mid : Text) :
    strip (a :: (mid ++ [b])) = a :: (mid ++ [b]) := by
  rw [strip, List.dropWhile_cons_of_neg (by simp [ha]), ← List.cons_append,
    List.rdropWhile_concat_neg _ _ _ (by simp [hb])]

/-! ## join -/

/-- `sep.join(ts)`. -/
def join (sep : Text) (ts : List Text) : Text := List.intercalate sep ts

@[simp] theorem join_nil (sep : Text) : join sep [] = [] := rfl

@[simp] theorem join_singleton (sep t : Text) : join sep [t] = t :=
  List.intercalate_singleton

theorem join_cons_of_ne_nil (sep t : Text) {ts : List Text} (h : ts ≠ []) :
    join sep (t :: ts) = t ++ sep ++ join sep ts :=
  List.intercalate_cons_of_ne_nil h

theorem join_append_of_ne_nil (sep : Text) {ts us : List Text} (hts : ts ≠ []) (hus : us ≠ []) :
    join sep (ts ++ us) = join sep ts ++ sep ++ join sep us := by
  induction ts with
  | nil => exact absurd rfl hts
  | cons t ts ih =>
    cases ts with
    | nil => rw [List.singleton_append, join_cons_of_ne_nil _ _ hus, join_singleton]
    | cons u ts =>
      have hne : u :: ts ≠ [] := List.cons_ne_nil _ _
      rw [List.cons_append, join_cons_of_ne_nil _ _ (by simp), ih hne,
        join_cons_of_ne_nil _ t hne]
      simp only [List.append_assoc]

theorem length_join_add (sep : Text) {ts : List Text} (h : ts ≠ []) :
    (join sep ts).length + sep.length = (ts.map fun t => t.length + sep.length).sum := by
  induction ts with
  | nil => exact absurd rfl h
  | cons t ts ih =>
    by_cases hts : ts = []
    · subst hts
      simp
    · rw [join_cons_of_ne_nil sep t hts, List.map_cons, List.sum_cons, ← ih hts]
      simp only [List.length_append]
      omega

/-- Joining with whitespace adds no other character. -/
theorem nw_join {sep : Text} (hsep : nw sep = []) (ts : List Text) :
    nw (join sep ts) = (ts.map nw).flatten := by
  induction ts with
  | nil => rfl
  | cons t ts ih =>
    by_cases hts : ts = []
    · simp [hts]
    · rw [join_cons_of_ne_nil _ _ hts]
      simp [hsep, ih]

/-! ## split -/

/-- The loop of `split`: `skip` characters of a separator already found are left
to pass over, `acc` is the field read so far. -/
def splitGo (sep : Text) : Text → Nat → Text → List Text
  | [], _, acc => [acc]
  | _ :: t, skip + 1, acc => splitGo sep t skip acc
  | c :: t, 0, acc =>
    if sep <+: c :: t then acc :: splitGo sep t (sep.length - 1) []
    else splitGo sep t 0 (acc ++ [c])

/-- `t.split(sep)` for a non-empty `sep`. -/
def split (sep t : Text) : List Text := splitGo sep t 0 []

theorem splitGo_ne_nil (sep t : Text) (skip : Nat) (acc : Text) :
    splitGo sep t skip acc ≠ [] := by
  induction t generalizing skip acc with
  | nil => simp [splitGo]
  | cons c t ih =>
    cases skip with
    | succ n => exact ih n acc
    | zero => rw [splitGo]; split <;> simp [ih]

theorem join_splitGo {sep : Text} (hsep : sep ≠ []) (t : Text) (skip : Nat) (acc : Text) :
    join sep (splitGo sep t skip acc) = acc ++ t.drop skip := by
  induction t generalizing skip acc with
  | nil => simp [splitGo]
  | cons c t ih =>
    cases skip with
    | succ n => exact ih n acc
    | zero =>
      rw [splitGo]
      split
      · next hpre =>
        obtain ⟨rest, hrest⟩ := hpre
        obtain ⟨s, sep', rfl⟩ := List.exists_cons_of_ne_nil hsep
        obtain ⟨rfl, rfl⟩ : s = c ∧ sep' ++ rest = t := by simpa using hrest
        rw [join_cons_of_ne_nil _ _ (splitGo_ne_nil _ _ _ _), ih]
        simp
      · rw [ih]; simp

/-- Splitting loses nothing but the separators. -/
theorem join_split {sep : Text} (hsep : sep ≠ []) (t : Text) : join sep (split sep t) = t := by
  rw [split, join_splitGo hsep, List.nil_append, List.drop_zero]

theorem splitGo_of_not_infix {sep t : Text} (h : ¬sep <:+: t) (acc : Text) :
    splitGo sep t 0 acc = [acc ++ t] := by
  induction t generalizing acc with
  | nil => simp [splitGo]
  | cons c t ih =>
    have hrest : ¬sep <:+: t := fun hinside => h (List.infix_cons hinside)
    rw [splitGo, if_neg fun hprefix => h hprefix.isInfix, ih hrest]
    simp

/-- A text without the separator is its only part. -/
theorem split_of_not_infix {sep t : Text} (h : ¬sep <:+: t) : split sep t = [t] :=
  splitGo_of_not_infix h []

theorem nw_split {sep : Text} (hsep : sep ≠ []) (hnw : nw sep = []) (t : Text) :
    ((split sep t).map nw).flatten = nw t := by
  rw [← nw_join hnw, join_split hsep]

/-! ## splitlines -/

/-- The characters that end a line for `str.splitlines`. -/
def lineBreak (c : Char) : Bool :=
  let n := c.toNat
  (0x0A ≤ n && n ≤ 0x0D) || (0x1C ≤ n && n ≤ 0x1E) || n == 0x85 || n == 0x2028 || n == 0x2029

/-- The lines of a text, each with the line break that ended it. -/
def linesWithEnds : Text → List (Text × Text)
  | [] => []
  | '\r' :: '\n' :: t => ([], ['\r', '\n']) :: linesWithEnds t
  | c :: t =>
    if lineBreak c then ([], [c]) :: linesWithEnds t
    else
      match linesWithEnds t with
      | [] => [([c], [])]
      | (line, e) :: rest => (c :: line, e) :: rest

/-- `t.splitlines(keepends)`. -/
def splitlines (keepends : Bool) (t : Text) : List Text :=
  (linesWithEnds t).map fun le => if keepends then le.1 ++ le.2 else le.1

theorem isspace_of_lineBreak {c : Char} (h : lineBreak c) : isspace c := by
  simp only [lineBreak, isspace, Bool.or_eq_true, Bool.and_eq_true, beq_iff_eq,
    decide_eq_true_eq] at h ⊢
  omega

theorem flatten_splitlines_keepends (t : Text) : (splitlines true t).flatten = t := by
  unfold splitlines
  induction t using linesWithEnds.induct with
  | case1 => rfl
  | case2 t ih => simpa [linesWithEnds] using ih
  | case3 c t h hc ih => simpa [linesWithEnds, hc] using ih
  | case4 c t h hc hnil ih => simpa [linesWithEnds, hc, hnil] using ih
  | case5 c t h hc line e rest hlines ih => simpa [linesWithEnds, hc, hlines] using ih

/-- A line break is whitespace: dropping it leaves the rest of the text. -/
theorem nw_splitlines (t : Text) : ((splitlines false t).map nw).flatten = nw t := by
  unfold splitlines
  induction t using linesWithEnds.induct with
  | case1 => rfl
  | case2 t ih =>
    have hcrlf : nw ('\r' :: '\n' :: t) = nw t := by simp [nw, isspace]
    rw [hcrlf]
    simpa [linesWithEnds] using ih
  | case3 c t h hc ih =>
    have hcs : nw [c] = [] := by simp [nw, isspace_of_lineBreak hc]
    rw [nw_cons]
    simpa [linesWithEnds, hc, hcs] using ih
  | case4 c t h hc hnil ih =>
    rw [nw_cons]
    simpa [linesWithEnds, hc, hnil] using ih
  | case5 c t h hc line e rest hlines ih =>
    rw [nw_cons, ← ih]
    simp [linesWithEnds, hc, hlines, nw_cons c line]

variable {t line : Text}

theorem splitlines_cons {keepends : Bool} {c : Char} {rest : List Text} (hc : lineBreak c = false)
    (ht : splitlines keepends t = line :: rest) : splitlines keepends (c :: t) = (c :: line) :: rest := by
  have hcrlf : ∀ u, c = '\r' → t = '\n' :: u → False := by
    rintro _ rfl
    cases hc
  unfold splitlines at ht ⊢
  obtain ⟨⟨l, e⟩, ls, hlines, rfl, rfl⟩ := List.map_eq_cons_iff.mp ht
  rw [linesWithEnds]
  · cases keepends <;> simp [hc, hlines]
  · exact hcrlf

/-- No line has a line break in it. -/
theorem lineBreak_of_mem_splitlines (h : line ∈ splitlines false t) : ∀ c ∈ line, lineBreak c = false := by
  unfold splitlines at h
  induction t using linesWithEnds.induct generalizing line with
  | case1 => cases h
  | case2 t ih => grind [linesWithEnds]
  | case3 c t hcrlf hc ih => grind [linesWithEnds]
  | case4 c t hcrlf hc hnil ih => grind [linesWithEnds]
  | case5 c t hcrlf hc line e rest hlines ih => grind [linesWithEnds]

theorem splitlines_append_newline (h : ∀ c ∈ line, lineBreak c = false) (t : Text) :
    splitlines false (line ++ '\n' :: t) = line :: splitlines false t := by
  induction line with
  | nil => simp [splitlines, linesWithEnds, lineBreak]
  | cons c line ih =>
    exact splitlines_cons (h c List.mem_cons_self)
      (ih fun d hd => h d (List.mem_cons_of_mem _ hd))

theorem splitlines_of_line (h : ∀ c ∈ line, lineBreak c = false) (hne : line ≠ []) :
    splitlines false line = [line] := by
  induction line with
  | nil => exact absurd rfl hne
  | cons c line ih =>
    by_cases hnil : line = []
    · subst hnil
      simp [splitlines, linesWithEnds, h c List.mem_cons_self]
    · exact splitlines_cons (h c List.mem_cons_self)
        (ih (fun d hd => h d (List.mem_cons_of_mem _ hd)) hnil)

/-- Joining lines and splitting again gives the lines, if the last one is not empty. -/
theorem splitlines_join {lines : List Text} {last : Text}
    (h : ∀ line ∈ lines, ∀ c ∈ line, lineBreak c = false)
    (hlast : ∀ c ∈ last, lineBreak c = false) (hne : last ≠ []) :
    splitlines false (join ['\n'] (lines ++ [last])) = lines ++ [last] := by
  induction lines with
  | nil => simpa using splitlines_of_line hlast hne
  | cons line lines ih =>
    rw [List.cons_append, join_cons_of_ne_nil _ _ (by simp), List.append_assoc, List.singleton_append,
      splitlines_append_newline (h line List.mem_cons_self),
      ih fun l hl => h l (List.mem_cons_of_mem _ hl)]

end PyText
