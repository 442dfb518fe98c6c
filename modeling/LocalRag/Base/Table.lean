-- SUMMARY: SQL tables with a primary key: select, insert, upsert and delete on a list of rows without duplicate keys.
import Mathlib.Data.List.Nodup

/-!
# Tables

A table is its rows in insertion order. The primary key is a function of the row,
and no two rows share it; every operation keeps that.
-/

namespace Sql

variable {α κ : Type} {key : α → κ}

structure Table (key : α → κ) where
  rows : List α
  unique : (rows.map key).Nodup

namespace Table

def empty : Table key := ⟨[], List.nodup_nil⟩

/-- `DELETE FROM t WHERE p`. -/
def deleteWhere (t : Table key) (p : α → Bool) : Table key where
  rows := t.rows.filter fun r => !p r
  unique := t.unique.sublist (List.Sublist.map key List.filter_sublist)

theorem nodup_append_row {t : Table key} {r : α} (h : key r ∉ t.rows.map key) :
    ((t.rows ++ [r]).map key).Nodup := by
  rw [List.map_append, List.map_singleton, List.nodup_append]
  refine ⟨t.unique, List.nodup_singleton _, fun k hk k' hk' => ?_⟩
  rw [List.mem_singleton.mp hk']
  exact ne_of_mem_of_not_mem hk h

@[simp] theorem mem_deleteWhere {t : Table key} {p : α → Bool} {r : α} :
    r ∈ (t.deleteWhere p).rows ↔ r ∈ t.rows ∧ p r = false := by
  simp [deleteWhere]

variable [DecidableEq κ]

/-- `SELECT * FROM t WHERE key = k`. -/
def find (t : Table key) (k : κ) : Option α := t.rows.find? fun r => key r = k

/-- `INSERT INTO t`; it fails where the key is taken. -/
def insert (t : Table key) (r : α) : Option (Table key) :=
  if h : key r ∈ t.rows.map key then none else some ⟨t.rows ++ [r], nodup_append_row h⟩

theorem map_key_replace (rows : List α) (r : α) :
    (rows.map fun r' => if key r' = key r then r else r').map key = rows.map key := by
  rw [List.map_map]
  refine List.map_congr_left fun r' _ => ?_
  simp only [Function.comp]
  split
  · next h => exact h.symm
  · rfl

/-- `INSERT INTO t … ON CONFLICT(key) DO UPDATE`: an existing row is replaced
where it stands. -/
def upsert (t : Table key) (r : α) : Table key :=
  if h : key r ∈ t.rows.map key then
    ⟨t.rows.map fun r' => if key r' = key r then r else r', by
      rw [map_key_replace]; exact t.unique⟩
  else ⟨t.rows ++ [r], nodup_append_row h⟩

variable {t : Table key} {r : α} {k : κ}

@[simp] theorem find_empty : (empty : Table key).find k = none := rfl

/-- The key determines the row. -/
theorem find_eq_some_iff : t.find k = some r ↔ r ∈ t.rows ∧ key r = k := by
  constructor
  · intro h
    exact ⟨List.mem_of_find?_eq_some h, by simpa using List.find?_some h⟩
  · rintro ⟨hr, rfl⟩
    cases hfind : t.find (key r) with
    | none => simpa using List.find?_eq_none.mp hfind r hr
    | some r' =>
      have hr' := List.mem_of_find?_eq_some hfind
      have hkey : key r' = key r := by simpa using List.find?_some hfind
      rw [List.inj_on_of_nodup_map t.unique hr' hr hkey]

theorem mem_insert {t' : Table key} {x : α} (h : t.insert r = some t') :
    x ∈ t'.rows ↔ x ∈ t.rows ∨ x = r := by
  unfold insert at h
  split at h
  · cases h
  · cases h; simp

theorem insert_eq_none_iff : t.insert r = none ↔ ∃ x ∈ t.rows, key x = key r := by
  rw [← List.mem_map]
  unfold insert
  split
  · next h => simp only [h]
  · next h => simp only [h, reduceCtorEq]

theorem mem_upsert {x : α} :
    x ∈ (t.upsert r).rows ↔ x = r ∨ x ∈ t.rows ∧ key x ≠ key r := by
  unfold upsert
  split
  · next h =>
    obtain ⟨y, hy, hyr⟩ := List.mem_map.mp h
    simp only [List.mem_map]
    constructor
    · rintro ⟨z, hz, rfl⟩
      split
      · exact .inl rfl
      · next hne => exact .inr ⟨hz, hne⟩
    · rintro (rfl | ⟨hx, hne⟩)
      · exact ⟨y, hy, if_pos hyr⟩
      · exact ⟨x, hx, if_neg hne⟩
  · next h =>
    have hne : ∀ z ∈ t.rows, key z ≠ key r := fun z hz hk => h (List.mem_map.mpr ⟨z, hz, hk⟩)
    simp only [List.mem_append, List.mem_singleton]
    constructor
    · rintro (hx | rfl)
      · exact .inr ⟨hx, hne x hx⟩
      · exact .inl rfl
    · rintro (rfl | ⟨hx, _⟩)
      · exact .inr rfl
      · exact .inl hx

@[simp] theorem find_upsert_self : (t.upsert r).find (key r) = some r :=
  find_eq_some_iff.mpr ⟨mem_upsert.mpr (.inl rfl), rfl⟩

theorem find_upsert_of_ne (h : k ≠ key r) : (t.upsert r).find k = t.find k := by
  refine Option.ext fun x => ?_
  rw [find_eq_some_iff, find_eq_some_iff, mem_upsert]
  constructor
  · rintro ⟨rfl | ⟨hx, _⟩, rfl⟩
    · exact absurd rfl h
    · exact ⟨hx, rfl⟩
  · rintro ⟨hx, rfl⟩
    exact ⟨.inr ⟨hx, h⟩, rfl⟩

/-- Deleting a set of keys. -/
theorem find_deleteWhere_key {q : κ → Bool} :
    (t.deleteWhere fun r => q (key r)).find k = if q k then none else t.find k := by
  refine Option.ext fun x => ?_
  rw [find_eq_some_iff, mem_deleteWhere]
  split
  · next hq =>
    constructor
    · rintro ⟨⟨_, hx⟩, rfl⟩; simp [hq] at hx
    · intro h; cases h
  · next hq =>
    rw [find_eq_some_iff]
    constructor
    · rintro ⟨⟨hx, _⟩, rfl⟩; exact ⟨hx, rfl⟩
    · rintro ⟨hx, rfl⟩; exact ⟨⟨hx, by simpa using hq⟩, rfl⟩

end Table

end Sql
