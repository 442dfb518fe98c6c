-- SUMMARY: The laws of the service calls: the rule for one call, and what each call changes or leaves alone.
import LocalRag.Base.Wp
import LocalRag.Common.Services

/-! # Laws of the services -/

namespace LocalRag

open PyText PyPath Effects Sql

/-- A world with the calls made so far. -/
abbrev Traced := World × List (Event Services)

variable {env : Env} {w : World} {p q : PurePath} {h : Text} {c : Call}

/-- One call: it is served, or it fails where it may. -/
theorem wp_call {mayFail : Call → World → Prop} {G : Call → Traced → Prop} {s : Traced}
    {Q : Except Exn (Services.Reply c) → Traced → Prop} :
    wp ((services env).answers mayFail) G (call c) Q s ↔
      G c s ∧
      Q (serve env c s.1).1 ((serve env c s.1).2, s.2 ++ [⟨c, (serve env c s.1).1.toBool⟩]) ∧
      (mayFail c s.1 → Q (.error (serviceFault c)) (s.1, s.2 ++ [⟨c, false⟩])) :=
  wp_lift_machine

/-- Every call of a run is as the guard says. -/
theorem mem_trace_of_wp {α : Type} {mayFail : Call → World → Prop} {P : Call → Prop}
    {prog rest : App α} {Q : Except Exn α → Traced → Prop} {s : Traced}
    (h : wp ((services env).answers mayFail) (fun c _ => P c) prog Q (w, []))
    (hrun : prog.Steps ((services env).answers mayFail) (w, []) rest s) : ∀ e ∈ s.2, P e.call := by
  refine wp_steps_preserved (J := fun s : Traced => ∀ e ∈ s.2, P e.call) h hrun (by simp) ?_
  rintro c s o s' hc hJ (⟨rfl, rfl⟩ | ⟨-, rfl, rfl⟩) e he
  all_goals
    rcases List.mem_append.mp he with he | he
    · exact hJ e he
    · rw [List.mem_singleton.mp he]
      exact hc

/-! ## Files -/

@[simp] theorem serve_fs : (serve env c w).2.fs = w.fs := by
  cases c <;> simp only [serve, orRaise, onCollection, onTable] <;> first | rfl | (split <;> rfl)

/-- No program changes the files. -/
theorem steps_fs {α : Type} {mayFail : Call → World → Prop} {prog prog' : App α} {s s' : Traced}
    (h : prog.Steps ((services env).answers mayFail) s prog' s') : s'.1.fs = s.1.fs := by
  induction h with
  | refl => rfl
  | call ha _ ih =>
    obtain ⟨-, rfl⟩ | ⟨-, -, rfl⟩ := ha
    · exact ih.trans serve_fs
    · exact ih

theorem serve_nextUuid_le : w.nextUuid ≤ (serve env c w).2.nextUuid := by
  cases c <;> simp only [serve, orRaise, onCollection, onTable] <;>
    first | exact le_rfl | exact Nat.le_succ _ | (split <;> exact le_rfl)

/-! ## Reading -/

/-- Embedding, Qdrant and SQLite. -/
def Call.remote : Call → Bool
  | .embed _ | .collectionExists | .getCollection | .createCollection _ _ | .createPayloadIndex _ _
  | .deleteCollection | .upsert _ | .delete _ | .initDb | .getHash _ | .upsertHash _ _ | .deleteHash _
  | .listAllPaths | .clearHashes => true
  | _ => false

/-- Calls that change nothing but `_collection_ensured`. -/
def Call.reads : Call → Bool
  | .createCollection _ _ | .createPayloadIndex _ _ | .deleteCollection | .upsert _ | .delete _
  | .initDb | .upsertHash _ _ | .deleteHash _ | .clearHashes | .uuid4 => false
  | _ => true

/-- A reading call only writes `_collection_ensured`. -/
theorem serve_reads (hc : c.reads = true) (w : World) :
    (serve env c w).2 = { w with ensured := (serve env c w).2.ensured } := by
  cases c <;> simp only [Call.reads, Bool.false_eq_true] at hc <;>
    simp only [serve, orRaise, onCollection, onTable] <;> first | rfl | (split <;> rfl)

/-- Calls that change nothing. -/
def Call.looks : Call → Bool
  | .setEnsured _ => false
  | c => c.reads

theorem serve_looks (hc : c.looks = true) (w : World) : (serve env c w).2 = w := by
  cases c <;> simp only [Call.looks, Call.reads, Bool.false_eq_true] at hc <;>
    simp only [serve, orRaise, onCollection, onTable] <;> first | rfl | (split <;> rfl)

/-! ## Fingerprints -/

/-- The path is tracked: it has a fingerprint. -/
def World.Tracks (w : World) (p : PurePath) : Prop := (w.hashAt p).isSome

/-- The call may change the stored fingerprint of `p`. -/
def Call.setsHash (p : PurePath) : Call → Bool
  | .upsertHash q _ | .deleteHash q => q = p
  | .clearHashes => true
  | _ => false

theorem hashAt_of_table {t : Table Fingerprint.filepath} (ht : w.fingerprints = some t) :
    w.hashAt p = (t.find p).map Fingerprint.sha256 := by
  simp [World.hashAt, ht]

/-- What `get_hash` replies. -/
theorem hashAt_of_getHash {prev : Option Text} (hprev : (serve env (.getHash p) w).1 = .ok prev) :
    prev = w.hashAt p := by
  cases ht : w.fingerprints with
  | none =>
    simp only [serve, onTable, ht] at hprev
    cases hprev
  | some t =>
    simp only [serve, onTable, ht] at hprev
    rw [hashAt_of_table ht]
    exact (Except.ok.inj hprev).symm

theorem tracks_iff_mem {t : Table Fingerprint.filepath} (ht : w.fingerprints = some t) :
    w.Tracks p ↔ p ∈ t.rows.map Fingerprint.filepath := by
  rw [World.Tracks, hashAt_of_table ht, Option.isSome_map, Option.isSome_iff_exists, List.mem_map]
  exact exists_congr fun r => Table.find_eq_some_iff

theorem hashAt_mapHashes_upsert_self (ht : w.fingerprints.isSome) :
    (w.mapHashes fun t => t.upsert ⟨p, h⟩).hashAt p = some h := by
  obtain ⟨t, ht⟩ := Option.isSome_iff_exists.mp ht
  have hfind : (t.upsert (⟨p, h⟩ : Fingerprint)).find p = some ⟨p, h⟩ :=
    Table.find_upsert_self (r := (⟨p, h⟩ : Fingerprint))
  simp [World.hashAt, World.mapHashes, ht, hfind]

theorem hashAt_mapHashes_upsert_of_ne (hq : q ≠ p) :
    (w.mapHashes fun t => t.upsert ⟨p, h⟩).hashAt q = w.hashAt q := by
  cases ht : w.fingerprints with
  | none => simp [World.hashAt, World.mapHashes, ht]
  | some t =>
    have hfind : (t.upsert (⟨p, h⟩ : Fingerprint)).find q = t.find q := Table.find_upsert_of_ne hq
    simp [World.hashAt, World.mapHashes, ht, hfind]

theorem hashAt_mapHashes_delete :
    (w.mapHashes fun t => t.deleteWhere fun r => r.filepath = p).hashAt q =
      if q = p then none else w.hashAt q := by
  cases ht : w.fingerprints with
  | none => simp [World.hashAt, World.mapHashes, ht]
  | some t =>
    have hfind := Table.find_deleteWhere_key (t := t) (k := q) (q := fun k => decide (k = p))
    simp only [World.hashAt, World.mapHashes, ht, Option.map_some, Option.bind_some, hfind]
    by_cases hq : q = p <;> simp [hq]

theorem hashAt_mapHashes_clear :
    (w.mapHashes fun t => t.deleteWhere fun _ => true).hashAt p = none := by
  cases ht : w.fingerprints with
  | none => simp [World.hashAt, World.mapHashes, ht]
  | some t =>
    have hfind := Table.find_deleteWhere_key (t := t) (k := p) (q := fun _ => true)
    simp only [World.hashAt, World.mapHashes, ht, Option.map_some, Option.bind_some, hfind]
    rfl

theorem serve_hashAt (hc : c.setsHash p = false) : (serve env c w).2.hashAt p = w.hashAt p := by
  cases c with
  | initDb => cases ht : w.fingerprints <;> simp [serve, World.hashAt, ht]
  | upsertHash q h =>
    have hq : p ≠ q := by simpa [Call.setsHash, eq_comm] using hc
    simp only [serve, onTable]
    split
    · exact hashAt_mapHashes_upsert_of_ne hq
    · rfl
  | deleteHash q =>
    have hq : p ≠ q := by simpa [Call.setsHash, eq_comm] using hc
    simp only [serve, onTable]
    split
    · simp [hashAt_mapHashes_delete, hq]
    · rfl
  | clearHashes => cases hc
  | _ => simp only [serve, orRaise, onCollection, onTable] <;> first | rfl | (split <;> rfl)

theorem tracks_serve (hp : (serve env c w).2.Tracks p) :
    w.Tracks p ∨ ∃ h, c = .upsertHash p h := by
  cases hc : c.setsHash p with
  | false => exact .inl (by rwa [World.Tracks, serve_hashAt hc] at hp)
  | true =>
    cases c with
    | upsertHash q h =>
      obtain rfl : q = p := by simpa [Call.setsHash] using hc
      exact .inr ⟨h, rfl⟩
    | deleteHash q =>
      obtain rfl : q = p := by simpa [Call.setsHash] using hc
      cases ht : w.fingerprints with
      | none => simp only [serve, onTable, ht] at hp; exact .inl hp
      | some t =>
        simp only [serve, onTable, ht] at hp
        rw [World.Tracks, hashAt_mapHashes_delete, if_pos rfl] at hp
        cases hp
    | clearHashes =>
      cases ht : w.fingerprints with
      | none => simp only [serve, onTable, ht] at hp; exact .inl hp
      | some t =>
        simp only [serve, onTable, ht] at hp
        rw [World.Tracks, hashAt_mapHashes_clear] at hp
        cases hp
    | _ => cases hc

/-! ## Points -/

/-- The call may change the stored points. -/
def Call.setsPoints : Call → Bool
  | .upsert _ | .delete _ | .deleteCollection => true
  | _ => false

theorem points_mapPoints {w : World} {f : List Point → List Point} (h : w.collection.isSome) :
    (w.mapPoints f).points = f w.points := by
  obtain ⟨c, hc⟩ := Option.isSome_iff_exists.mp h
  simp [World.points, World.mapPoints, hc]

theorem serve_points (hc : c.setsPoints = false) : (serve env c w).2.points = w.points := by
  cases c with
  | upsert points => cases hc
  | delete f => cases hc
  | deleteCollection => cases hc
  | createCollection vectors sparse =>
    simp only [serve]
    split
    · rfl
    · next hnone => simp [World.points, hnone]
  | createPayloadIndex field schema =>
    simp only [serve, onCollection]
    split
    · next hsome => simp [World.points, hsome]
    · rfl
  | _ => simp only [serve, orRaise, onCollection, onTable] <;> first | rfl | (split <;> rfl)

theorem pointsAt_eq_nil_iff : w.pointsAt p = [] ↔ ∀ pt ∈ w.points, pt.payload.filepath ≠ p := by
  simp [World.pointsAt, List.filter_eq_nil_iff]

theorem pointsAt_mapPoints_delete :
    (w.mapPoints fun stored => stored.filter fun pt => !Filter.selects ⟨p, none⟩ pt).pointsAt q =
      if q = p then [] else w.pointsAt q := by
  cases hc : w.collection with
  | none => simp [World.pointsAt, World.points, World.mapPoints, hc]
  | some c =>
    simp only [World.pointsAt, World.points, World.mapPoints, hc, Option.map_some, Option.getD_some,
      List.filter_filter]
    split
    · next hq =>
      subst hq
      exact List.filter_eq_nil_iff.mpr fun pt _ => by simp [Filter.selects]
    · next hq =>
      refine List.filter_congr fun pt _ => ?_
      by_cases hpt : pt.payload.filepath = q <;> simp [Filter.selects, hpt, hq]

theorem mem_of_mem_storePoints {stored new : List Point} {pt : Point}
    (h : pt ∈ new.foldl storePoint stored) : pt ∈ stored ∨ pt ∈ new := by
  induction new generalizing stored with
  | nil => exact .inl h
  | cons pt' new ih =>
    rcases ih h with h | h
    · rcases List.mem_append.mp h with h | h
      · exact .inl (List.mem_of_mem_filter h)
      · exact .inr (List.mem_singleton.mp h ▸ List.mem_cons_self)
    · exact .inr (List.mem_cons_of_mem _ h)

theorem mem_points_serve {pt : Point} (hpt : pt ∈ (serve env c w).2.points) :
    pt ∈ w.points ∨ ∃ points, c = .upsert points ∧ pt ∈ points := by
  cases hc : c.setsPoints with
  | false => exact .inl (by rwa [serve_points hc] at hpt)
  | true =>
    cases c with
    | upsert points =>
      cases hcol : w.collection with
      | none => simp only [serve, onCollection, hcol] at hpt; exact .inl hpt
      | some c =>
        simp only [serve, onCollection, hcol] at hpt
        rw [points_mapPoints (hcol ▸ rfl)] at hpt
        exact (mem_of_mem_storePoints hpt).imp id fun h => ⟨points, rfl, h⟩
    | delete f =>
      cases hcol : w.collection with
      | none => simp only [serve, onCollection, hcol] at hpt; exact .inl hpt
      | some c =>
        simp only [serve, onCollection, hcol] at hpt
        rw [points_mapPoints (hcol ▸ rfl)] at hpt
        exact .inl (List.mem_of_mem_filter hpt)
    | deleteCollection => cases hpt
    | _ => cases hc

/-! ## Answers that forget the state -/

/-- The answers that a call may get in some world of a kind, or by failing where it may. -/
def answersIn (env : Env) (mayFail : Call → Prop) (V : World → Prop) : Answers Services Exn Unit :=
  fun c _ o _ => (∃ w, V w ∧ o = (serve env c w).1) ∨ mayFail c ∧ o = .error (serviceFault c)

/-- One call, in any world of the kind. -/
theorem wp_answersIn {mayFail : Call → Prop} {V : World → Prop} {G : Call → Unit → Prop}
    {Q : Except Exn (Services.Reply c) → Unit → Prop} (hG : G c ())
    (hok : ∀ w a, V w → (serve env c w).1 = .ok a → Q (.ok a) ()) (herr : ∀ e, Q (.error e) ()) :
    wp (answersIn env mayFail V) G (call c) Q () := by
  refine ⟨hG, ?_⟩
  rintro o ⟨⟩ (⟨w, hw, rfl⟩ | ⟨-, rfl⟩)
  · cases hreply : (serve env c w).1 with
    | ok a => exact hok w a hw hreply
    | error e => exact herr e
  · exact herr _

/-- What holds for any answers of worlds of a kind holds in a world with such files. -/
theorem wp_of_answersIn {α : Type} {prog : App α} {mayFail : Call → World → Prop} {V : World → Prop}
    {G : Call → Unit → Prop} {Q : Except Exn α → Unit → Prop} {s : Traced}
    (hV : ∀ w : World, w.fs = s.1.fs → V w) (h : wp (answersIn env (fun _ => True) V) G prog Q ()) :
    wp ((services env).answers mayFail) (fun c _ => G c ()) prog (fun r _ => Q r ()) s := by
  refine wp_conseq (wp_simulate (f := fun _ => ()) (fun s' : Traced => s'.1.fs = s.1.fs) h rfl ?_)
    (fun c _ hc => hc.2) fun _ _ hq => hq.2
  rintro c s₁ o s₂ hs - (⟨rfl, rfl⟩ | ⟨-, rfl, rfl⟩)
  · exact ⟨serve_fs.trans hs, .inl ⟨s₁.1, hV s₁.1 hs, rfl⟩⟩
  · exact ⟨hs, .inr ⟨trivial, rfl⟩⟩

end LocalRag
