-- SUMMARY: What the worker and the handler may write: only under the path that their path resolves to, whatever happens around them.
import LocalRag.Ingest.Progress

/-!
# The scope of a job

A job of the worker and a handler of the observer run beside each other, and the
files change under them. Whatever replies they get and whichever of their calls
fail, they write only documents and fingerprints of the path that their own path
resolves to.
-/

namespace LocalRag

open PyText PyPath Effects Sql

/-- What may happen beside a program: links stay, a collection is not dropped, and uuids are
drawn. -/
structure Drift (fs : FileSystem) (w w₁ : World) : Prop where
  links : fs.SameLinks w₁.fs
  collection : w.collection.isSome → w₁.collection.isSome
  nextUuid : w.nextUuid ≤ w₁.nextUuid

/-- Replies in a world that others may have changed. Every call may fail. -/
def Disturbed (env : Env) (fs : FileSystem) : Answers Services Exn World :=
  fun c w o w' => ∃ w₁, Drift fs w w₁ ∧
    ((o = (serve env c w₁).1 ∧ w' = (serve env c w₁).2) ∨ (o = .error (serviceFault c) ∧ w' = w₁))

/-- The id of the point and its version were drawn already. -/
def World.Drew (w : World) (pt : Point) : Prop :=
  pt.id < w.nextUuid ∧ ∀ v ∈ pt.payload.indexVersion, v < w.nextUuid

/-- The call writes and submits only paths in `P`, and it keeps the services set up. -/
def ConfinedTo (P : PurePath → Prop) : Call → World → Prop
  | .upsert points, w => ∀ pt ∈ points, P pt.payload.filepath ∧ w.Drew pt
  | .delete f, _ => P f.filepath
  | .upsertHash p _, _ | .deleteHash p, _ | .submit p, _ => P p
  | .createCollection _ sparse, _ => sparseVector ∈ sparse.map Prod.fst
  | .setEnsured value, w => value = true → w.collection.isSome
  | .deleteCollection, _ | .initDb, _ | .clearHashes, _ => False
  | _, _ => True

variable {env : Env} {fs : FileSystem} {w w' : World} {c : Call} {p q : PurePath}
  {P : PurePath → Prop}

/-- What `p` resolves to. -/
abbrev ResolvesTo (fs : FileSystem) (p : PurePath) (r : PurePath) : Prop := fs.normalize p = some r

/-- The program is confined to `P`, and when it returns a value, `R` holds of it. -/
abbrev Confined {α : Type} (env : Env) (fs : FileSystem) (P : PurePath → Prop) (prog : App α)
    (R : α → World → Prop) (w : World) : Prop :=
  wp (Disturbed env fs) (ConfinedTo P) prog (onOk R fun _ _ => True) w

theorem Drift.refl (h : fs.SameLinks w.fs) : Drift fs w w := ⟨h, id, le_rfl⟩

theorem Drift.trans {w₁ w₂ : World} (h : Drift fs w w₁) (h' : Drift fs w₁ w₂) : Drift fs w w₂ :=
  ⟨h'.links, h'.collection ∘ h.collection, h.nextUuid.trans h'.nextUuid⟩

/-! ## What confined calls keep -/

theorem ConfinedTo.mono {w₁ : World} (h : ConfinedTo P c w) (hdrift : Drift fs w w₁) :
    ConfinedTo P c w₁ := by
  cases c with
  | upsert points =>
    intro pt hpt
    obtain ⟨hP, hid, hversion⟩ := h pt hpt
    exact ⟨hP, hid.trans_le hdrift.nextUuid, fun v hv => (hversion v hv).trans_le hdrift.nextUuid⟩
  | setEnsured value => exact fun hvalue => hdrift.collection (h hvalue)
  | _ => exact h

theorem ConfinedTo.ready (h : ConfinedTo P c w) (hready : w.Ready) :
    (serve env c w).2.Ready ∧ (w.collection.isSome → (serve env c w).2.collection.isSome) := by
  cases hc : c.keepsReady with
  | true =>
    obtain ⟨hready', hcol⟩ : (serve env c w).2.Ready ∧
        (serve env c w).2.collection.isSome = w.collection.isSome := serve_ready hc hready
    exact ⟨hready', fun hsome => hcol ▸ hsome⟩
  | false =>
    cases c with
    | createCollection vectors sparse =>
      cases hcol : w.collection with
      | some col =>
        simp only [serve, hcol]
        exact ⟨hready, fun _ => rfl⟩
      | none =>
        simp only [serve, hcol]
        refine ⟨⟨hready.table, fun c hc => ?_, fun _ => rfl⟩, fun _ => rfl⟩
        cases hc
        exact h
    | setEnsured value => exact ⟨⟨hready.table, hready.layout, h⟩, id⟩
    | deleteCollection => exact h.elim
    | _ => cases hc

theorem ConfinedTo.drift (h : ConfinedTo P c w) (hready : w.Ready) (hlinks : fs.SameLinks w.fs) :
    Drift fs w (serve env c w).2 := by
  refine ⟨?_, (h.ready hready).2, serve_nextUuid_le⟩
  rw [serve_fs]
  exact hlinks

theorem ConfinedTo.drawn (h : ConfinedTo P c w) (hdrawn : w.UuidsDrawn) :
    (serve env c w).2.UuidsDrawn := by
  intro pt hpt
  have hdrew : w.Drew pt := by
    rcases mem_points_serve hpt with hstored | ⟨points, rfl, hnew⟩
    · exact hdrawn pt hstored
    · exact (h pt hnew).2
  exact ⟨hdrew.1.trans_le serve_nextUuid_le, fun v hv => (hdrew.2 v hv).trans_le serve_nextUuid_le⟩

/-- A confined call leaves the fingerprints of other paths alone. -/
theorem ConfinedTo.setsHash (h : ConfinedTo P c w) (hq : ¬ P q) : c.setsHash q = false := by
  cases c with
  | upsertHash r hash => exact decide_eq_false fun hr => hq (hr ▸ h)
  | deleteHash r => exact decide_eq_false fun hr => hq (hr ▸ h)
  | clearHashes => exact h.elim
  | _ => rfl

/-- What is left of a program is confined whatever happened beside it. -/
theorem Confined.drift {α : Type} {prog : App α} {w₁ : World}
    (h : Confined env fs P prog (fun _ _ => True) w) (hdrift : Drift fs w w₁) :
    Confined env fs P prog (fun _ _ => True) w₁ := by
  cases prog with
  | ret r => cases r <;> trivial
  | call c k =>
    refine ⟨h.1.mono hdrift, fun o w' ha => ?_⟩
    obtain ⟨w₂, hdrift', ha⟩ := ha
    exact h.2 o w' ⟨w₂, hdrift.trans hdrift', ha⟩

/-- What is left of a program after its next call. -/
theorem Confined.next {α : Type} {k : Except Exn (Services.Reply c) → App α}
    {R : α → World → Prop} (h : Confined env fs P (.call c k) R w) (hlinks : fs.SameLinks w.fs) :
    Confined env fs P (k (serve env c w).1) R (serve env c w).2 :=
  h.2 _ _ ⟨w, .refl hlinks, .inl ⟨rfl, rfl⟩⟩

/-- On its own a confined program makes confined calls. -/
theorem Confined.guarded {α : Type} {prog : App α} {R : α → World → Prop}
    {mayFail : Call → World → Prop} {s : Traced} (h : Confined env fs P prog R s.1)
    (hlinks : fs.SameLinks s.1.fs) :
    wp ((services env).answers mayFail) (fun c s' => ConfinedTo P c s'.1) prog (fun _ _ => True) s := by
  refine wp_conseq (wp_simulate (f := Prod.fst) (fun s' : Traced => fs.SameLinks s'.1.fs) h hlinks ?_)
    (fun _ _ hc => hc.2) fun _ _ _ => trivial
  rintro c s o s' hs - (⟨rfl, rfl⟩ | ⟨-, rfl, rfl⟩)
  · have hfs : (LocalRag.serve env c s.1).2.fs = s.1.fs := serve_fs
    exact ⟨hfs.symm ▸ hs, s.1, .refl hs, .inl ⟨rfl, rfl⟩⟩
  · exact ⟨hs, s.1, .refl hs, .inr ⟨rfl, rfl⟩⟩

/-- What a confined program keeps on its own. -/
structure Kept (P : PurePath → Prop) (w w' : World) : Prop where
  fs : w'.fs = w.fs
  ready : w'.Ready
  drawn : w'.UuidsDrawn
  hashes : ∀ q, ¬ P q → w'.hashAt q = w.hashAt q

theorem Kept.refl (hready : w.Ready) (hdrawn : w.UuidsDrawn) : Kept P w w :=
  ⟨rfl, hready, hdrawn, fun _ _ => rfl⟩

theorem Kept.trans {w₁ w₂ : World} (h : Kept P w w₁) (h' : Kept P w₁ w₂) : Kept P w w₂ :=
  ⟨h'.fs.trans h.fs, h'.ready, h'.drawn, fun q hq => (h'.hashes q hq).trans (h.hashes q hq)⟩

theorem kept_of_guarded {α : Type} {prog rest : App α} {Q : Except Exn α → Traced → Prop}
    {mayFail : Call → World → Prop} {s s' : Traced}
    (h : wp ((services env).answers mayFail) (fun c s' => ConfinedTo P c s'.1) prog Q s)
    (hready : s.1.Ready) (hdrawn : s.1.UuidsDrawn)
    (hrun : prog.Steps ((services env).answers mayFail) s rest s') : Kept P s.1 s'.1 := by
  refine wp_steps_preserved (J := fun s' : Traced => Kept P s.1 s'.1) h hrun (.refl hready hdrawn) ?_
  rintro c s₁ o s₂ hc hs (⟨rfl, rfl⟩ | ⟨-, rfl, rfl⟩)
  · exact ⟨serve_fs.trans hs.fs, (hc.ready hs.ready).1, hc.drawn hs.drawn,
      fun q hq => (serve_hashAt (hc.setsHash hq)).trans (hs.hashes q hq)⟩
  · exact hs

/-! ## Rules for the program constructs -/

theorem Confined.bind {α β : Type} {prog : App α} {f : α → App β} {R : α → World → Prop}
    {R' : β → World → Prop} (h : Confined env fs P prog R w)
    (hf : ∀ a w', R a w' → Confined env fs P (f a) R' w') :
    Confined env fs P (prog >>= f) R' w := by
  refine wp_bind.mpr (wp_mono h fun r w' hr => ?_)
  cases r with
  | ok a => exact hf a w' hr
  | error e => trivial

theorem Confined.mono {α : Type} {prog : App α} {R R' : α → World → Prop}
    (h : Confined env fs P prog R w) (hR : ∀ a w', R a w' → R' a w') :
    Confined env fs P prog R' w := by
  refine wp_mono h fun r w' hr => ?_
  cases r with
  | ok a => exact hR a w' hr
  | error e => trivial

theorem Confined.andThen {α β : Type} {prog : App α} {f : α → App β} {R' : β → World → Prop}
    (h : Confined env fs P prog (fun _ _ => True) w) (hf : ∀ a w', Confined env fs P (f a) R' w') :
    Confined env fs P (prog >>= f) R' w :=
  .bind h fun a w' _ => hf a w'

theorem Confined.orElse {α : Type} {prog : App α} {a : α} {R R' : α → World → Prop}
    (h : Confined env fs P prog R w) (hR : ∀ a w', R a w' → R' a w') (ha : ∀ w', R' a w') :
    Confined env fs P (LocalRag.orElse prog a) R' w := by
  refine wp_tryCatch.mpr (wp_mono h fun r w' hr => ?_)
  cases r with
  | ok b => exact hR b w' hr
  | error e => exact ha w'

theorem Confined.call {R : Services.Reply c → World → Prop} (hc : ConfinedTo P c w)
    (hR : ∀ w₁ a, Drift fs w w₁ → (serve env c w₁).1 = .ok a → R a (serve env c w₁).2) :
    Confined env fs P (LocalRag.call c) R w := by
  refine wp_lift.mpr ⟨hc, ?_⟩
  rintro o w' ⟨w₁, hdrift, ⟨rfl, rfl⟩ | ⟨rfl, rfl⟩⟩
  · cases hreply : (serve env c w₁).1 with
    | ok a => exact hR w₁ a hdrift hreply
    | error e => trivial
  · trivial

/-- A call whose reply does not matter. -/
theorem Confined.call_any {R : Services.Reply c → World → Prop} (hc : ConfinedTo P c w)
    (hR : ∀ a w', R a w') : Confined env fs P (LocalRag.call c) R w :=
  .call hc fun _ a _ _ => hR a _

theorem Confined.normalizePath :
    Confined env fs P (LocalRag.normalizePath p) (fun r _ => fs.normalize p = some r) w := by
  refine .call trivial fun w₁ r hdrift hr => ?_
  rw [← hdrift.links.normalize]
  exact orRaise_eq_ok_iff.mp hr

/-! ## Removing a document -/

theorem confined_removeIndexedDocument {q : PurePath} (hP : ∀ r, fs.normalize q = some r → P r) :
    Confined env fs P (removeIndexedDocument q) (fun _ _ => True) w := by
  unfold removeIndexedDocument deleteDocument deleteHash
  refine .bind .normalizePath fun r w₁ hr => ?_
  have hself := fs.normalize_of_real (fs.real_of_normalize hr)
  refine .andThen (.bind .normalizePath fun r' w₂ hr' => ?_) fun _ w₃ =>
    .bind .normalizePath fun r' w₄ hr' => ?_
  · obtain rfl : r = r' := Option.some_inj.mp (hself.symm.trans hr')
    exact .call_any (hP r hr) fun _ _ => trivial
  · obtain rfl : r = r' := Option.some_inj.mp (hself.symm.trans hr')
    exact .call_any (hP r hr) fun _ _ => trivial

/-! ## Indexing a file -/

theorem confined_ensureCollection :
    Confined env fs P (ensureCollection env) (fun _ _ => True) w := by
  have hlast : ∀ w : World, w.collection.isSome →
      Confined env fs P (call (.setEnsured true)) (fun _ _ => True) w :=
    fun w hcol => .call_any (fun _ => hcol) fun _ _ => trivial
  unfold ensureCollection
  refine .andThen (.call_any trivial fun _ _ => trivial) fun (ensured : Bool) w₁ => ?_
  split
  · trivial
  refine .bind (R := fun (found : Bool) w' => found = true → w'.collection.isSome)
    (.call trivial fun w₂ found _ hfound => ?_) fun found w₂ hfound => ?_
  · obtain rfl : w₂.collection.isSome = found := Except.ok.inj hfound
    exact id
  have hindex : ∀ (w : World) field schema, w.collection.isSome → Confined env fs P
      (call (.createPayloadIndex field schema)) (fun _ w' => w'.collection.isSome) w := by
    refine fun w field schema hcol => .call trivial fun w₁ _ hdrift _ => ?_
    obtain ⟨c, hc⟩ := Option.isSome_iff_exists.mp (hdrift.collection hcol)
    simp [serve, onCollection, hc]
  dsimp only
  split
  · next htrue =>
    refine .bind (R := fun _ w' => w'.collection.isSome) (.call trivial fun w₃ sparse hdrift _ => ?_)
      fun (sparse : List Text) w₃ hcol => ?_
    · rw [serve_reads rfl]
      exact hdrift.collection (hfound htrue)
    change Confined env fs P (if sparse.contains sparseVector then call (.setEnsured true)
      else throw Exn.oldLayout >>= fun _ => call (.setEnsured true)) _ w₃
    split
    · exact hlast w₃ hcol
    · trivial
  · refine .bind (R := fun _ w' => w'.collection.isSome)
      (.call (List.mem_singleton_self _) fun w₃ _ _ hreply => ?_) fun _ w₃ hcol => ?_
    · cases hc : w₃.collection with
      | none => simp [serve, hc]
      | some c => simp only [serve, hc] at hreply; cases hreply
    exact .bind (hindex w₃ _ _ hcol) fun _ w₄ hcol => .bind (hindex w₄ _ _ hcol) fun _ w₅ hcol =>
      hlast w₅ hcol

theorem confined_readFile : Confined env fs P (readFile p) (fun _ _ => True) w := by
  unfold readFile
  refine .andThen (.call_any trivial fun _ _ => trivial) fun (size : ℕ) w₁ => ?_
  split
  · trivial
  · exact .orElse (R := fun _ _ => True) (.andThen (.call_any trivial fun _ _ => trivial)
      fun _ _ => trivial) (fun _ _ _ => trivial) fun _ => trivial

/-- New points of a document: their ids were drawn, and they have no version yet. -/
def NewPoints (q : PurePath) (points : List Point) (w : World) : Prop :=
  ∀ pt ∈ points, pt.payload.filepath = q ∧ pt.id < w.nextUuid

theorem confined_makePoints (documentId : Text) (total i : ℕ) (l : List (Text × List ℚ)) :
    Confined env fs P (makePoints env p q documentId total l i)
      (fun points w' => w.nextUuid ≤ w'.nextUuid ∧ NewPoints q points w') w := by
  induction l generalizing i w with
  | nil => exact ⟨le_rfl, fun _ hpt => (List.not_mem_nil hpt).elim⟩
  | cons cv l ih =>
    unfold makePoints
    refine .bind (R := fun (id : ℕ) w' => w.nextUuid ≤ id ∧ id < w'.nextUuid)
      (.call trivial fun w₁ id hdrift hid => ?_) fun (id : ℕ) w₁ hid => ?_
    · obtain rfl : w₁.nextUuid = id := Except.ok.inj hid
      exact ⟨hdrift.nextUuid, Nat.lt_succ_self _⟩
    refine .bind (ih (i + 1)) fun points w₂ hnew => ?_
    have hnext := hid.2.trans_le hnew.1
    exact ⟨by omega, List.forall_mem_cons.mpr ⟨⟨rfl, hnext⟩, hnew.2⟩⟩

theorem confined_embedChunks (chunks : List Text) (documentId : Text) :
    Confined env fs P (embedChunks env p q chunks documentId) (NewPoints q) w := by
  have hembed : Confined env fs P (embedBatch env chunks) (fun _ _ => True) w := by
    unfold embedBatch
    split
    · trivial
    · refine wp_bind.mpr ?_
      cases chunks.mapM prepareText with
      | error e => trivial
      | ok prepared =>
        refine Confined.andThen (.call_any trivial fun _ _ => trivial) fun response w₁ => ?_
        cases parseEmbeddings env.settings prepared.length response <;> trivial
  exact .andThen hembed fun vectors w₁ => .mono (confined_makePoints _ _ _ _) fun _ _ h => h.2

theorem confined_upsertChunks {points : List Point} (hq : P q) (hpoints : NewPoints q points w) :
    Confined env fs P (upsertChunks q points) (fun _ _ => True) w := by
  unfold upsertChunks
  refine .bind (R := fun (version : ℕ) w' => w.nextUuid ≤ version ∧ version < w'.nextUuid)
    (.call trivial fun w₁ version hdrift hversion => ?_) fun (version : ℕ) w₁ hversion => ?_
  · obtain rfl : w₁.nextUuid = version := Except.ok.inj hversion
    exact ⟨hdrift.nextUuid, Nat.lt_succ_self _⟩
  refine .andThen (.orElse (R := fun _ _ => True) (.andThen (.call_any ?_ fun _ _ => trivial)
    fun _ _ => trivial) (fun _ _ _ => trivial) fun _ => trivial) fun (upserted : Bool) w₂ => ?_
  · intro pt hpt
    obtain ⟨pt', hpt', rfl⟩ := List.mem_map.mp hpt
    obtain ⟨rfl, hid⟩ := hpoints pt' hpt'
    refine ⟨hq, hid.trans (hversion.1.trans_lt hversion.2), ?_⟩
    rintro v ⟨⟩
    exact hversion.2
  split
  · exact .orElse (R := fun _ _ => True) (.andThen (.call_any hq fun _ _ => trivial)
      fun _ _ => trivial) (fun _ _ _ => trivial) fun _ => trivial
  · trivial

theorem confined_indexFile (hP : ∀ r, fs.normalize p = some r → P r) :
    Confined env fs P (indexFile env p) (fun _ _ => True) w := by
  unfold indexFile
  refine .andThen confined_ensureCollection fun _ w₁ => .bind .normalizePath fun r w₂ hr =>
    .andThen confined_readFile fun text w₃ => ?_
  split
  · trivial
  dsimp only
  split
  · trivial
  refine .bind (R := fun points w' => ∀ l ∈ points, NewPoints r l w')
    (.orElse (.bind (confined_embedChunks _ _) fun points w₄ hpoints => ?_) (fun _ _ h => h)
      fun _ => nofun) fun points w₄ hpoints => ?_
  · rintro _ ⟨⟩
    exact hpoints
  split
  · trivial
  · next l => exact confined_upsertChunks (hP r hr) (hpoints l rfl)

/-- A job writes only under the path that its path resolves to. -/
theorem confined_indexIfChanged (p : PurePath) (w : World) :
    Confined env fs (ResolvesTo fs p) (indexIfChanged env p) (fun _ _ => True) w := by
  have hremove : ∀ w, Confined env fs (ResolvesTo fs p) (removeIndexedDocument p) (fun _ _ => True) w :=
    fun w => confined_removeIndexedDocument fun _ hr => hr
  unfold indexIfChanged
  refine .andThen (.call_any trivial fun _ _ => trivial) fun (found : Bool) w₁ => ?_
  split
  case isFalse => trivial
  refine .orElse (R := fun _ _ => True) ?_ (fun _ _ _ => trivial) fun _ => trivial
  unfold indexChanged sha256File getHash upsertHash
  refine .andThen (.andThen (.call_any trivial fun _ _ => trivial) fun _ _ => trivial) fun fileHash w₂ => ?_
  refine .andThen (.bind .normalizePath fun _ _ _ => .call_any trivial fun _ _ => trivial)
    fun (prev : Option Text) w₃ => ?_
  split
  · trivial
  refine .andThen (confined_indexFile fun _ hr => hr) fun outcome w₄ => ?_
  split
  · exact .andThen (.bind .normalizePath fun r _ hr => .call_any hr fun _ _ => trivial)
      fun _ _ => trivial
  · split
    · exact .andThen (hremove w₄) fun _ _ => trivial
    · trivial
  · trivial

end LocalRag
