-- SUMMARY: JSON values, `json.dumps`, and a parser that reads back what it writes.
import Mathlib.Tactic.IntervalCases
import LocalRag.Base.PyText

/-!
# JSON

`dumps` is `json.dumps` with its default arguments: ASCII only, `", "` and `": "` as
separators. `parse` reads JSON texts whose numbers are integers.
-/

namespace LocalRag

open PyText

inductive Json where
  | null
  | bool (b : Bool)
  | num (n : ℤ)
  | str (t : Text)
  | arr (items : List Json)
  | obj (fields : List (Text × Json))

namespace Json

/-! ## Writing -/

def hexDigit (n : ℕ) : Char := "0123456789abcdef".toList.getD n '0'

/-- `\uXXXX`, for a unit of UTF-16. -/
def escapeUnit (n : ℕ) : Text :=
  ['\\', 'u', hexDigit (n / 4096 % 16), hexDigit (n / 256 % 16), hexDigit (n / 16 % 16), hexDigit (n % 16)]

/-- The letters of the short escapes. -/
def shortEscapes : List (Char × Char) :=
  [('"', '"'), ('\\', '\\'), ('\n', 'n'), ('\r', 'r'), ('\t', 't'), (Char.ofNat 8, 'b'), (Char.ofNat 12, 'f')]

/-- A character of a string. Those beyond `0xFFFF` are written as a surrogate pair. -/
def escapeChar (c : Char) : Text :=
  match shortEscapes.lookup c with
  | some letter => ['\\', letter]
  | none =>
    if 0x20 ≤ c.toNat ∧ c.toNat ≤ 0x7E then [c]
    else if c.toNat < 0x10000 then escapeUnit c.toNat
    else escapeUnit (0xD800 + (c.toNat - 0x10000) / 0x400) ++ escapeUnit (0xDC00 + (c.toNat - 0x10000) % 0x400)

def dumpString (t : Text) : Text := '"' :: t.flatMap escapeChar ++ ['"']

def dumpInt : ℤ → Text
  | .ofNat n => Nat.toDigits 10 n
  | .negSucc n => '-' :: Nat.toDigits 10 (n + 1)

mutual
/-- `json.dumps`. -/
def dumps : Json → Text
  | .null => "null".toList
  | .bool true => "true".toList
  | .bool false => "false".toList
  | .num n => dumpInt n
  | .str t => dumpString t
  | .arr items => '[' :: dumpItems items ++ [']']
  | .obj fields => '{' :: dumpFields fields ++ ['}']

def dumpItems : List Json → Text
  | [] => []
  | [v] => dumps v
  | v :: vs => dumps v ++ ',' :: ' ' :: dumpItems vs

def dumpFields : List (Text × Json) → Text
  | [] => []
  | [(key, v)] => dumpString key ++ ':' :: ' ' :: dumps v
  | (key, v) :: fields => dumpString key ++ ':' :: ' ' :: dumps v ++ ',' :: ' ' :: dumpFields fields
end

/-! ## Reading -/

def isBlank (c : Char) : Bool := c = ' ' || c = '\t' || c = '\n' || c = '\r'

def skipBlanks (t : Text) : Text := t.dropWhile isBlank

def hexValue (c : Char) : Option ℕ :=
  let n := c.toNat
  if 48 ≤ n ∧ n ≤ 57 then some (n - 48)
  else if 97 ≤ n ∧ n ≤ 102 then some (n - 87)
  else if 65 ≤ n ∧ n ≤ 70 then some (n - 55)
  else none

/-- The value of four hexadecimal digits. -/
def unitValue (a b c d : Char) : Option ℕ := do
  let a ← hexValue a
  let b ← hexValue b
  let c ← hexValue c
  let d ← hexValue d
  some (a * 4096 + b * 256 + c * 16 + d)

def shortEscape (letter : Char) : Option Char :=
  if letter = '/' then some '/' else (shortEscapes.find? (·.2 = letter)).map (·.1)

/-- The rest of a string, and the text after it. A surrogate without its partner is not read. -/
def parseString : Text → Option (Text × Text)
  | [] => none
  | c :: rest =>
    if c = '"' then some ([], rest)
    else if c ≠ '\\' then
      if c.toNat < 0x20 then none else (parseString rest).map fun r => (c :: r.1, r.2)
    else match rest with
    | [] => none
    | letter :: rest =>
      if letter ≠ 'u' then
        match shortEscape letter with
        | none => none
        | some c => (parseString rest).map fun r => (c :: r.1, r.2)
      else match rest with
      | a :: b :: c :: d :: rest =>
        match unitValue a b c d with
        | none => none
        | some n =>
          if n < 0xD800 ∨ 0xDFFF < n then (parseString rest).map fun r => (Char.ofNat n :: r.1, r.2)
          else match rest with
          | '\\' :: 'u' :: e :: f :: g :: h :: rest =>
            match unitValue e f g h with
            | none => none
            | some m =>
              if n < 0xDC00 ∧ 0xDC00 ≤ m ∧ m ≤ 0xDFFF then
                (parseString rest).map fun r =>
                  (Char.ofNat (0x10000 + (n - 0xD800) * 0x400 + (m - 0xDC00)) :: r.1, r.2)
              else none
          | _ => none
      | _ => none

/-- A natural number without leading zeros, and the text after it. -/
def parseNat (t : Text) : Option (ℕ × Text) :=
  let digits := t.takeWhile Char.isDigit
  let rest := t.dropWhile Char.isDigit
  if digits = [] ∨ (digits.head? = some '0' ∧ digits.length ≠ 1) then none
  else some (Nat.ofDigitChars 10 digits 0, rest)

def parseInt : Text → Option (ℤ × Text)
  | '-' :: rest => (parseNat rest).map fun r => (-(r.1 : ℤ), r.2)
  | t => (parseNat t).map fun r => ((r.1 : ℤ), r.2)

def parseLiteral (word : Text) (v : Json) (t : Text) : Option (Json × Text) :=
  if word.isPrefixOf t then some (v, t.drop word.length) else none

mutual
/-- A value and the text after it, with a bound on the depth of the calls. -/
def parseValue : ℕ → Text → Option (Json × Text)
  | 0, _ => none
  | depth + 1, t =>
    match skipBlanks t with
    | [] => none
    | c :: rest =>
      if c = '"' then (parseString rest).map fun r => (.str r.1, r.2)
      else if c = '[' then
        if (skipBlanks rest).head? = some ']' then some (.arr [], (skipBlanks rest).tail)
        else (parseItems depth rest).map fun r => (.arr r.1, r.2)
      else if c = '{' then
        if (skipBlanks rest).head? = some '}' then some (.obj [], (skipBlanks rest).tail)
        else (parseFields depth rest).map fun r => (.obj r.1, r.2)
      else if c = 'n' then parseLiteral "ull".toList .null rest
      else if c = 't' then parseLiteral "rue".toList (.bool true) rest
      else if c = 'f' then parseLiteral "alse".toList (.bool false) rest
      else (parseInt (c :: rest)).map fun r => (.num r.1, r.2)

/-- The items of an array that has some. -/
def parseItems : ℕ → Text → Option (List Json × Text)
  | 0, _ => none
  | depth + 1, t =>
    match parseValue depth t with
    | none => none
    | some (v, rest) =>
      match skipBlanks rest with
      | ']' :: rest => some ([v], rest)
      | ',' :: rest => (parseItems depth rest).map fun r => (v :: r.1, r.2)
      | _ => none

/-- The fields of an object that has some. -/
def parseFields : ℕ → Text → Option (List (Text × Json) × Text)
  | 0, _ => none
  | depth + 1, t =>
    match skipBlanks t with
    | '"' :: rest =>
      match parseString rest with
      | none => none
      | some (key, rest) =>
        match skipBlanks rest with
        | ':' :: rest =>
          match parseValue depth rest with
          | none => none
          | some (v, rest) =>
            match skipBlanks rest with
            | '}' :: rest => some ([(key, v)], rest)
            | ',' :: rest => (parseFields depth rest).map fun r => ((key, v) :: r.1, r.2)
            | _ => none
        | _ => none
    | _ => none
end

/-- `JSON.parse`. -/
def parse (t : Text) : Option Json :=
  match parseValue (2 * t.length) t with
  | none => none
  | some (v, rest) => if skipBlanks rest = [] then some v else none

/-! ## Strings are read back -/

theorem hexValue_hexDigit {n : ℕ} (hn : n < 16) : hexValue (hexDigit n) = some n := by
  interval_cases n <;> rfl

theorem unitValue_digits {n : ℕ} (hn : n < 0x10000) :
    unitValue (hexDigit (n / 4096 % 16)) (hexDigit (n / 256 % 16)) (hexDigit (n / 16 % 16))
      (hexDigit (n % 16)) = some n := by
  have hsum : n / 4096 % 16 * 4096 + n / 256 % 16 * 256 + n / 16 % 16 * 16 + n % 16 = n := by omega
  have hmod : ∀ m, m % 16 < 16 := fun m => Nat.mod_lt m (by decide)
  simp only [unitValue, hexValue_hexDigit (hmod _), Option.bind_eq_bind, Option.bind_some, hsum]

/-- A unit that is no surrogate is a character. -/
theorem parseString_escapeUnit {n : ℕ} (hn : n < 0x10000) (hchar : n < 0xD800 ∨ 0xDFFF < n) (rest : Text) :
    parseString (escapeUnit n ++ rest) = (parseString rest).map fun r => (Char.ofNat n :: r.1, r.2) := by
  simp only [escapeUnit, List.cons_append, List.nil_append]
  rw [parseString.eq_def]
  simp only [unitValue_digits hn]
  rw [if_neg (by decide), if_neg (by decide), if_neg (by decide), if_pos hchar]

/-- A high and a low surrogate are one character. -/
theorem parseString_surrogates {n m : ℕ} (hn : 0xD800 ≤ n ∧ n < 0xDC00) (hm : 0xDC00 ≤ m ∧ m ≤ 0xDFFF)
    (rest : Text) :
    parseString (escapeUnit n ++ (escapeUnit m ++ rest)) = (parseString rest).map fun r =>
      (Char.ofNat (0x10000 + (n - 0xD800) * 0x400 + (m - 0xDC00)) :: r.1, r.2) := by
  have hunits : n < 0x10000 ∧ m < 0x10000 := by omega
  have hsurrogate : ¬ (n < 0xD800 ∨ 0xDFFF < n) := by omega
  simp only [escapeUnit, List.cons_append, List.nil_append]
  rw [parseString.eq_def]
  simp only [unitValue_digits hunits.1, unitValue_digits hunits.2]
  rw [if_neg (by decide), if_neg (by decide), if_neg (by decide), if_neg hsurrogate, if_pos ⟨hn.2, hm⟩]

theorem parseString_short {letter c : Char} (hunit : letter ≠ 'u') (hletter : shortEscape letter = some c)
    (rest : Text) :
    parseString ('\\' :: letter :: rest) = (parseString rest).map fun r => (c :: r.1, r.2) := by
  rw [parseString.eq_def]
  dsimp only
  rw [if_neg (by decide), if_neg (by decide), if_pos hunit, hletter]

theorem shortEscape_mem : ∀ p ∈ shortEscapes, p.2 ≠ 'u' ∧ shortEscape p.2 = some p.1 := by decide

theorem parseString_escapeChar (c : Char) (rest : Text) :
    parseString (escapeChar c ++ rest) = (parseString rest).map fun r => (c :: r.1, r.2) := by
  unfold escapeChar
  cases hshort : shortEscapes.lookup c with
  | some letter =>
    have hmem : (c, letter) ∈ shortEscapes := by
      obtain ⟨before, after, hsplit, -⟩ := List.lookup_eq_some_iff.mp hshort
      rw [hsplit]
      exact List.mem_append_right _ (List.mem_cons_self ..)
    obtain ⟨hunit, hletter⟩ := shortEscape_mem _ hmem
    exact parseString_short hunit hletter rest
  | none =>
    dsimp only
    split
    · next hprintable =>
      have hquote : c ≠ '"' := by
        rintro rfl
        cases hshort
      have hbackslash : c ≠ '\\' := by
        rintro rfl
        cases hshort
      rw [List.singleton_append, parseString.eq_def]
      dsimp only
      rw [if_neg hquote, if_pos hbackslash, if_neg (by omega)]
    · split
      · next hbasic =>
        have hchar : c.toNat < 0xD800 ∨ 0xDFFF < c.toNat := by
          rcases c.valid with h | h
          · exact .inl h
          · exact .inr h.1
        rw [parseString_escapeUnit hbasic hchar, Char.ofNat_toNat]
      · next hbasic =>
        have hlt : c.toNat < 0x110000 := by
          rcases c.valid with h | h
          · exact lt_trans h (by decide)
          · exact h.2
        have hvalue : 0x10000 + (0xD800 + (c.toNat - 0x10000) / 0x400 - 0xD800) * 0x400 +
            (0xDC00 + (c.toNat - 0x10000) % 0x400 - 0xDC00) = c.toNat := by omega
        rw [List.append_assoc, parseString_surrogates (by omega) (by omega), hvalue, Char.ofNat_toNat]

theorem parseString_dumpString (t rest : Text) :
    parseString (t.flatMap escapeChar ++ '"' :: rest) = some (t, rest) := by
  induction t with
  | nil =>
    rw [List.flatMap_nil, List.nil_append, parseString.eq_def]
    rfl
  | cons c t ih => rw [List.flatMap_cons, List.append_assoc, parseString_escapeChar, ih, Option.map_some]

/-! ## Numbers are read back -/

theorem head_toDigits {n : ℕ} (hn : 0 < n) : (Nat.toDigits 10 n).head? ≠ some '0' := by
  induction n using Nat.strong_induction_on with
  | _ n ih =>
    rw [Nat.toDigits_eq_if (by decide)]
    split
    · next hlt =>
      interval_cases n <;> decide
    · next hge =>
      have hhead := ih (n / 10) (by omega) (by omega)
      rw [List.head?_append]
      cases hdigits : (Nat.toDigits 10 (n / 10)).head? with
      | none => exact absurd (List.head?_eq_none_iff.mp hdigits) Nat.toDigits_ne_nil
      | some c =>
        rw [hdigits] at hhead
        exact hhead

theorem parseNat_toDigits (n : ℕ) {rest : Text} (hrest : ∀ c ∈ rest.head?, c.isDigit = false) :
    parseNat (Nat.toDigits 10 n ++ rest) = some (n, rest) := by
  have hdigits : ∀ c ∈ Nat.toDigits 10 n, c.isDigit = true := fun c hc =>
    Nat.isDigit_of_mem_toDigits (by decide) (by decide) hc
  have htake : (Nat.toDigits 10 n ++ rest).takeWhile Char.isDigit = Nat.toDigits 10 n := by
    rw [List.takeWhile_append_of_pos hdigits]
    cases rest with
    | nil => exact List.append_nil _
    | cons c rest =>
      rw [List.takeWhile_cons_of_neg (by simp [hrest c rfl]), List.append_nil]
  have hdrop : (Nat.toDigits 10 n ++ rest).dropWhile Char.isDigit = rest := by
    rw [List.dropWhile_append_of_pos hdigits]
    cases rest with
    | nil => rfl
    | cons c rest => exact List.dropWhile_cons_of_neg (by simp [hrest c rfl])
  have hzeros : ¬ (Nat.toDigits 10 n = [] ∨
      (Nat.toDigits 10 n).head? = some '0' ∧ (Nat.toDigits 10 n).length ≠ 1) := by
    rintro (hnil | ⟨hzero, hlength⟩)
    · exact Nat.toDigits_ne_nil hnil
    · cases n with
      | zero => exact hlength rfl
      | succ n => exact head_toDigits (Nat.succ_pos n) hzero
  simp only [parseNat, htake, hdrop, if_neg hzeros, Nat.ofDigitChars_ten_toDigits]

/-! ## Values are read back -/

/-- A character that a value can begin with. -/
def Begins (c : Char) : Prop := isBlank c = false ∧ c ≠ ']' ∧ c ≠ '}'

theorem dumpInt_head (n : ℤ) : ∃ c t, dumpInt n = c :: t ∧ (c.isDigit = true ∨ c = '-') := by
  cases n with
  | ofNat n =>
    obtain ⟨c, t, hdigits⟩ := List.exists_cons_of_ne_nil (Nat.toDigits_ne_nil (n := n) (b := 10))
    have hc : c ∈ Nat.toDigits 10 n := hdigits ▸ List.mem_cons_self ..
    exact ⟨c, t, hdigits, .inl (Nat.isDigit_of_mem_toDigits (by decide) (by decide) hc)⟩
  | negSucc n => exact ⟨'-', _, rfl, .inr rfl⟩

theorem digit_ne {c d : Char} (hc : c.isDigit = true ∨ c = '-') (hd : d.isDigit = false) (hminus : d ≠ '-') :
    c ≠ d := by
  rintro rfl
  rcases hc with hc | rfl
  · rw [hc] at hd
    cases hd
  · exact hminus rfl

theorem begins_digit {c : Char} (hc : c.isDigit = true ∨ c = '-') : Begins c := by
  have hne : ∀ d : Char, d.isDigit = false → d ≠ '-' → c ≠ d := fun d => digit_ne hc
  refine ⟨?_, hne _ (by decide) (by decide), hne _ (by decide) (by decide)⟩
  simp [isBlank, hne ' ' (by decide) (by decide), hne '\t' (by decide) (by decide),
    hne '\n' (by decide) (by decide), hne '\r' (by decide) (by decide)]

theorem dumps_head (v : Json) : ∃ c t, dumps v = c :: t ∧ Begins c := by
  cases v with
  | null => exact ⟨_, _, rfl, by decide, by decide, by decide⟩
  | bool b => cases b <;> exact ⟨_, _, rfl, by decide, by decide, by decide⟩
  | num n =>
    obtain ⟨c, t, hdumps, hc⟩ := dumpInt_head n
    exact ⟨c, t, hdumps, begins_digit hc⟩
  | str t => exact ⟨_, _, rfl, by decide, by decide, by decide⟩
  | arr items => exact ⟨_, _, by rw [dumps, List.cons_append], by decide, by decide, by decide⟩
  | obj fields => exact ⟨_, _, by rw [dumps, List.cons_append], by decide, by decide, by decide⟩

theorem skipBlanks_cons {c : Char} (hc : isBlank c = false) (t : Text) : skipBlanks (c :: t) = c :: t :=
  List.dropWhile_cons_of_neg (by simp [hc])

theorem parseValue_blank (depth : ℕ) (t : Text) : parseValue depth (' ' :: t) = parseValue depth t := by
  cases depth <;> rfl

theorem parseItems_blank (depth : ℕ) (t : Text) : parseItems depth (' ' :: t) = parseItems depth t := by
  cases depth with
  | zero => rfl
  | succ depth => rw [parseItems, parseItems, parseValue_blank]

theorem parseFields_blank (depth : ℕ) (t : Text) : parseFields depth (' ' :: t) = parseFields depth t := by
  cases depth <;> rfl

theorem parseInt_dumpInt (n : ℤ) {rest : Text} (hrest : ∀ c ∈ rest.head?, c.isDigit = false) :
    parseInt (dumpInt n ++ rest) = some (n, rest) := by
  cases n with
  | negSucc n =>
    have hparse := parseNat_toDigits (n + 1) hrest
    simp only [dumpInt, List.cons_append, parseInt, hparse, Option.map_some]
    rfl
  | ofNat n =>
    obtain ⟨c, t, hdigits⟩ := List.exists_cons_of_ne_nil (Nat.toDigits_ne_nil (n := n) (b := 10))
    have hc : c ∈ Nat.toDigits 10 n := hdigits ▸ List.mem_cons_self ..
    have hdigit : c.isDigit = true := Nat.isDigit_of_mem_toDigits (by decide) (by decide) hc
    have hminus : c ≠ '-' := by
      rintro rfl
      cases hdigit
    have hparse := parseNat_toDigits n hrest
    rw [dumpInt]
    rw [hdigits, List.cons_append] at hparse ⊢
    rw [parseInt, hparse]
    · rfl
    · rintro _ ⟨⟩
      exact hminus rfl

theorem parseValue_num (n : ℤ) {depth : ℕ} {rest : Text} (hrest : ∀ c ∈ rest.head?, c.isDigit = false) :
    parseValue (depth + 1) (dumpInt n ++ rest) = some (.num n, rest) := by
  have hparse := parseInt_dumpInt n hrest
  obtain ⟨c, t, hdumps, hc⟩ := dumpInt_head n
  have hne : ∀ d : Char, d.isDigit = false → d ≠ '-' → c ≠ d := fun d => digit_ne hc
  rw [hdumps, List.cons_append] at hparse ⊢
  rw [parseValue, skipBlanks_cons (begins_digit hc).1]
  dsimp only
  rw [if_neg (hne _ (by decide) (by decide)), if_neg (hne _ (by decide) (by decide)),
    if_neg (hne _ (by decide) (by decide)), if_neg (hne _ (by decide) (by decide)),
    if_neg (hne _ (by decide) (by decide)), if_neg (hne _ (by decide) (by decide)), hparse]
  rfl

theorem dumpItems_cons (v w : Json) (ws : List Json) :
    dumpItems (v :: w :: ws) = dumps v ++ ',' :: ' ' :: dumpItems (w :: ws) := rfl

theorem dumpFields_cons (key : Text) (v : Json) (field : Text × Json) (fields : List (Text × Json)) :
    dumpFields ((key, v) :: field :: fields) =
      dumpString key ++ ':' :: ' ' :: dumps v ++ ',' :: ' ' :: dumpFields (field :: fields) := rfl

theorem dumpItems_head (v : Json) (vs : List Json) :
    ∃ c t, dumpItems (v :: vs) = c :: t ∧ Begins c := by
  obtain ⟨c, t, hdumps, hbegins⟩ := dumps_head v
  cases vs with
  | nil => exact ⟨c, t, by rw [dumpItems, hdumps], hbegins⟩
  | cons w ws => exact ⟨c, _, by rw [dumpItems_cons, hdumps, List.cons_append], hbegins⟩

theorem dumpFields_head (key : Text) (v : Json) (fields : List (Text × Json)) :
    ∃ t, dumpFields ((key, v) :: fields) = '"' :: t := by
  cases fields with
  | nil => exact ⟨_, by rw [dumpFields, dumpString, List.cons_append, List.cons_append]⟩
  | cons field fields =>
    exact ⟨_, by rw [dumpFields_cons, dumpString, List.cons_append, List.cons_append, List.cons_append]⟩

/-- What may come after a value. -/
def Follows (rest : Text) : Prop := ∀ c ∈ rest.head?, c.isDigit = false

theorem follows_cons {c : Char} (hc : c.isDigit = false) (rest : Text) : Follows (c :: rest) := by
  rintro _ ⟨⟩
  exact hc

/-- What is written within the bound is read back. -/
structure ReadsBack (depth : ℕ) : Prop where
  value : ∀ v rest, 2 * (dumps v).length ≤ depth → Follows rest →
    parseValue depth (dumps v ++ rest) = some (v, rest)
  items : ∀ v vs rest, 2 * (dumpItems (v :: vs)).length + 1 ≤ depth →
    parseItems depth (dumpItems (v :: vs) ++ ']' :: rest) = some (v :: vs, rest)
  fields : ∀ key v fields rest, 2 * (dumpFields ((key, v) :: fields)).length + 1 ≤ depth →
    parseFields depth (dumpFields ((key, v) :: fields) ++ '}' :: rest) = some ((key, v) :: fields, rest)

section

variable {depth : ℕ} (ih : ReadsBack depth)

include ih

theorem ReadsBack.parseValue_dumps (v : Json) {rest : Text} (hdepth : 2 * (dumps v).length ≤ depth + 1)
    (hrest : Follows rest) : parseValue (depth + 1) (dumps v ++ rest) = some (v, rest) := by
  match v with
  | .null => rfl
  | .bool true => rfl
  | .bool false => rfl
  | .num n => exact parseValue_num n hrest
  | .str t =>
    rw [dumps, dumpString, List.cons_append, List.cons_append, List.append_assoc, parseValue,
      skipBlanks_cons (by decide)]
    dsimp only
    rw [if_pos rfl, List.singleton_append, parseString_dumpString]
    rfl
  | .arr [] => rfl
  | .arr (v :: vs) =>
    rw [dumps, List.length_append, List.length_cons, List.length_singleton] at hdepth
    obtain ⟨c, t, hitems, hbegins⟩ := dumpItems_head v vs
    have hclose : ¬ (skipBlanks (dumpItems (v :: vs) ++ ']' :: rest)).head? = some ']' := by
      rw [hitems, List.cons_append, skipBlanks_cons hbegins.1]
      exact fun hc => hbegins.2.1 (Option.some.inj hc)
    rw [dumps, List.cons_append, List.cons_append, List.append_assoc, List.singleton_append, parseValue,
      skipBlanks_cons (by decide)]
    dsimp only
    rw [if_neg (by decide), if_pos rfl, if_neg hclose, ih.items v vs rest (by omega)]
    rfl
  | .obj [] => rfl
  | .obj ((key, v) :: fields) =>
    rw [dumps, List.length_append, List.length_cons, List.length_singleton] at hdepth
    obtain ⟨t, hfields⟩ := dumpFields_head key v fields
    have hclose : ¬ (skipBlanks (dumpFields ((key, v) :: fields) ++ '}' :: rest)).head? = some '}' := by
      rw [hfields, List.cons_append, skipBlanks_cons (by decide)]
      exact fun hc => absurd (Option.some.inj hc) (by decide)
    rw [dumps, List.cons_append, List.cons_append, List.append_assoc, List.singleton_append, parseValue,
      skipBlanks_cons (by decide)]
    dsimp only
    rw [if_neg (by decide), if_neg (by decide), if_pos rfl, if_neg hclose,
      ih.fields key v fields rest (by omega)]
    rfl

theorem ReadsBack.parseItems_dumps (v : Json) (vs : List Json) {rest : Text}
    (hdepth : 2 * (dumpItems (v :: vs)).length + 1 ≤ depth + 1) :
    parseItems (depth + 1) (dumpItems (v :: vs) ++ ']' :: rest) = some (v :: vs, rest) := by
  cases vs with
  | nil =>
    rw [dumpItems] at hdepth
    rw [dumpItems, parseItems, ih.value v (']' :: rest) (by omega) (follows_cons (by decide) rest)]
    rfl
  | cons w ws =>
    rw [dumpItems_cons, List.length_append, List.length_cons, List.length_cons] at hdepth
    rw [dumpItems_cons, List.append_assoc, List.cons_append, List.cons_append, parseItems,
      ih.value v _ (by omega) (follows_cons (by decide) _)]
    change (parseItems depth (' ' :: (dumpItems (w :: ws) ++ ']' :: rest))).map _ = _
    rw [parseItems_blank, ih.items w ws rest (by omega)]
    rfl

/-- A key and its value are read, up to what comes after the value. -/
theorem ReadsBack.parseFields_field (key : Text) (v : Json) {rest : Text}
    (hdepth : 2 * (dumps v).length ≤ depth) (hrest : Follows rest) :
    parseFields (depth + 1) (dumpString key ++ ':' :: ' ' :: (dumps v ++ rest)) =
      match skipBlanks rest with
      | '}' :: rest => some ([(key, v)], rest)
      | ',' :: rest => (parseFields depth rest).map fun r => ((key, v) :: r.1, r.2)
      | _ => none := by
  rw [dumpString, List.cons_append, List.cons_append, List.append_assoc, List.singleton_append, parseFields,
    skipBlanks_cons (by decide)]
  simp only [parseString_dumpString]
  rw [skipBlanks_cons (by decide)]
  simp only [parseValue_blank, ih.value v rest hdepth hrest]

theorem ReadsBack.parseFields_dumps (key : Text) (v : Json) (fields : List (Text × Json)) {rest : Text}
    (hdepth : 2 * (dumpFields ((key, v) :: fields)).length + 1 ≤ depth + 1) :
    parseFields (depth + 1) (dumpFields ((key, v) :: fields) ++ '}' :: rest) =
      some ((key, v) :: fields, rest) := by
  cases fields with
  | nil =>
    rw [dumpFields, List.length_append, List.length_cons, List.length_cons] at hdepth
    rw [dumpFields, List.append_assoc, List.cons_append, List.cons_append,
      ih.parseFields_field key v (by omega) (follows_cons (by decide) _)]
    rfl
  | cons field fields =>
    obtain ⟨key', v'⟩ := field
    rw [dumpFields_cons, List.length_append, List.length_append, List.length_cons, List.length_cons,
      List.length_cons, List.length_cons] at hdepth
    rw [dumpFields_cons, List.append_assoc, List.append_assoc, List.cons_append, List.cons_append,
      List.cons_append, List.cons_append, ih.parseFields_field key v (by omega) (follows_cons (by decide) _)]
    change (parseFields depth (' ' :: (dumpFields ((key', v') :: fields) ++ '}' :: rest))).map _ = _
    rw [parseFields_blank, ih.fields key' v' fields rest (by omega)]
    rfl

end

theorem readsBack (depth : ℕ) : ReadsBack depth := by
  induction depth with
  | zero =>
    refine ⟨fun v rest hdepth => ?_, fun v vs rest hdepth => ?_, fun key v fields rest hdepth => ?_⟩
    · obtain ⟨c, t, hdumps, -⟩ := dumps_head v
      rw [hdumps, List.length_cons] at hdepth
      omega
    · omega
    · omega
  | succ depth ih =>
    exact ⟨fun v _ => ih.parseValue_dumps v, fun v vs _ => ih.parseItems_dumps v vs,
      fun key v fields _ => ih.parseFields_dumps key v fields⟩

/-- `JSON.parse` inverts `json.dumps`. -/
theorem parse_dumps (v : Json) : parse (dumps v) = some v := by
  have hread := (readsBack (2 * (dumps v).length)).value v [] le_rfl nofun
  rw [List.append_nil] at hread
  rw [parse, hread]
  rfl

/-! ## One line of ASCII -/

/-- The characters that are written. -/
def Printable (t : Text) : Prop := ∀ c ∈ t, 0x20 ≤ c.toNat ∧ c.toNat ≤ 0x7E

instance (t : Text) : Decidable (Printable t) :=
  List.decidableBAll (fun c : Char => 0x20 ≤ c.toNat ∧ c.toNat ≤ 0x7E) t

theorem Printable.append {t u : Text} (ht : Printable t) (hu : Printable u) : Printable (t ++ u) := by
  intro c hc
  rcases List.mem_append.mp hc with hc | hc
  · exact ht c hc
  · exact hu c hc

theorem Printable.cons {c : Char} {t : Text} (hc : 0x20 ≤ c.toNat ∧ c.toNat ≤ 0x7E) (ht : Printable t) :
    Printable (c :: t) := List.forall_mem_cons.mpr ⟨hc, ht⟩

theorem printable_nil : Printable [] := nofun

theorem printable_hexDigit (n : ℕ) : 0x20 ≤ (hexDigit (n % 16)).toNat ∧ (hexDigit (n % 16)).toNat ≤ 0x7E := by
  have hlt : n % 16 < 16 := Nat.mod_lt n (by decide)
  interval_cases n % 16 <;> decide

theorem printable_escapeUnit (n : ℕ) : Printable (escapeUnit n) :=
  .cons (by decide) (.cons (by decide) (.cons (printable_hexDigit _) (.cons (printable_hexDigit _)
    (.cons (printable_hexDigit _) (.cons (printable_hexDigit _) printable_nil)))))

theorem shortEscapes_printable : ∀ p ∈ shortEscapes, 0x20 ≤ p.2.toNat ∧ p.2.toNat ≤ 0x7E := by decide

theorem printable_escapeChar (c : Char) : Printable (escapeChar c) := by
  unfold escapeChar
  split
  · next letter hshort =>
    obtain ⟨before, after, hsplit, -⟩ := List.lookup_eq_some_iff.mp hshort
    have hmem : (c, letter) ∈ shortEscapes := hsplit ▸ List.mem_append_right _ (List.mem_cons_self ..)
    exact .cons (by decide) (.cons (shortEscapes_printable _ hmem) printable_nil)
  · split
    · next hprintable => exact .cons hprintable printable_nil
    · split
      · exact printable_escapeUnit _
      · exact .append (printable_escapeUnit _) (printable_escapeUnit _)

theorem printable_dumpString (t : Text) : Printable (dumpString t) := by
  have hchars : Printable (t.flatMap escapeChar) := by
    intro c hc
    obtain ⟨d, -, hc⟩ := List.mem_flatMap.mp hc
    exact printable_escapeChar d c hc
  exact .append (.cons (by decide) hchars) (.cons (by decide) printable_nil)

theorem printable_toDigits (n : ℕ) : Printable (Nat.toDigits 10 n) := by
  intro c hc
  have hdigit : c.isDigit = true := Nat.isDigit_of_mem_toDigits (by decide) (by decide) hc
  have hrange := Char.isDigit_iff_toNat.mp hdigit
  have hzero : '0'.toNat = 48 := rfl
  have hnine : '9'.toNat = 57 := rfl
  omega

theorem printable_dumpInt (n : ℤ) : Printable (dumpInt n) := by
  cases n with
  | ofNat n => exact printable_toDigits n
  | negSucc n => exact .cons (by decide) (printable_toDigits _)

mutual
theorem printable_dumps : (v : Json) → Printable (dumps v)
  | .null => by decide
  | .bool true => by decide
  | .bool false => by decide
  | .num n => printable_dumpInt n
  | .str t => printable_dumpString t
  | .arr items => .append (.cons (by decide) (printable_dumpItems items)) (.cons (by decide) printable_nil)
  | .obj fields => .append (.cons (by decide) (printable_dumpFields fields)) (.cons (by decide) printable_nil)

theorem printable_dumpItems : (vs : List Json) → Printable (dumpItems vs)
  | [] => printable_nil
  | [v] => printable_dumps v
  | v :: w :: vs =>
    .append (printable_dumps v) (.cons (by decide) (.cons (by decide) (printable_dumpItems (w :: vs))))

theorem printable_dumpFields : (fields : List (Text × Json)) → Printable (dumpFields fields)
  | [] => printable_nil
  | [(key, v)] =>
    .append (printable_dumpString key) (.cons (by decide) (.cons (by decide) (printable_dumps v)))
  | (key, v) :: field :: fields =>
    .append (.append (printable_dumpString key) (.cons (by decide) (.cons (by decide) (printable_dumps v))))
      (.cons (by decide) (.cons (by decide) (printable_dumpFields (field :: fields))))
end

end Json

end LocalRag
