-- SUMMARY: When a top-level Python statement comes out whole in one chunk: where the parser and splitlines count the same lines.
import LocalRag.Base.PhysicalLines
import LocalRag.Ingest.Coverage

/-!
# Statements in chunks

`chunk_python` cuts the text where the line numbers of the statements say. The parser
made these numbers, and `str.splitlines` the list of lines that they index: a statement
is cut out as it stands in the text as long as the two count the same lines up to its
end. What is cut out in one piece stays in one piece when small neighbours are packed.
-/

namespace LocalRag

open PyText PyPath Packing

/-! ## Source -/

/-- The first line of a statement, its decorators included. -/
def Stmt.firstLine (node : Stmt) : ℕ := node.decoratorLinenos.foldl min node.lineno

/-- The stripped source lines of a statement, as the parser counts them. -/
def Stmt.source (node : Stmt) (text : Text) : Text :=
  lineSpan (physicalLines text) node.firstLine node.endLineno

/-- The text occurs in one of the chunks. -/
def OccursIn (t : Text) (chunks : List Text) : Prop := ∃ c ∈ chunks, t <:+: c

variable {s : Settings} {sep t text : Text} {chunks lines : List Text} {pre post body : List Stmt}
  {node : Stmt}

/-! ## Packing keeps pieces whole -/

theorem infix_join_of_mem (ht : t ∈ chunks) : t <:+: join sep chunks := by
  induction chunks with
  | nil => cases ht
  | cons c chunks ih =>
    by_cases hnil : chunks = []
    · subst hnil
      rw [List.mem_singleton.mp ht, join_singleton]
    rw [join_cons_of_ne_nil sep c hnil]
    rcases List.mem_cons.mp ht with rfl | ht
    · exact ⟨[], sep ++ join sep chunks, by simp⟩
    · exact (ih ht).trans (List.suffix_append _ _).isInfix

theorem occursIn_mergeSplits (overlap : ℤ) (ht : t ∈ chunks) :
    OccursIn t (mergeSplits s chunks sep overlap) := by
  have hfresh : (pack len sep.length s.chunkSize overlap chunks).flatMap Window.fresh = chunks :=
    pack_fresh chunks
  obtain ⟨w, hw, htw⟩ := List.mem_flatMap.mp (hfresh.symm ▸ ht)
  refine ⟨join sep w.items, ?_, infix_join_of_mem (List.mem_append_right _ htw)⟩
  rw [mergeSplits_eq_pack]
  exact List.mem_map_of_mem hw

/-! ## The loop over the statements -/

/-- The segment of a statement whose first line is not shared is among the chunks. -/
theorem emit_subset_chunkBody {prevEnd : ℕ}
    (hshared : (pre.getLast?.map Stmt.endLineno).getD prevEnd ≤ node.firstLine - 1) :
    emit s (lineSpan lines node.firstLine node.endLineno) ⊆
      (chunkBody s lines (pre ++ node :: post) prevEnd).1 := by
  induction pre generalizing prevEnd with
  | nil =>
    change prevEnd ≤ node.firstLine - 1 at hshared
    have hstart : max node.firstLine (prevEnd + 1) - 1 = node.firstLine - 1 := by omega
    have hspan : lineSpan lines (max node.firstLine (prevEnd + 1)) node.endLineno =
        lineSpan lines node.firstLine node.endLineno := by
      rw [lineSpan, lineSpan, hstart]
    intro c hc
    rw [← hspan] at hc
    exact List.mem_append_right _ (List.mem_append_left _ hc)
  | cons prev pre ih =>
    have hlast : ((prev :: pre).getLast?.map Stmt.endLineno).getD prevEnd =
        (pre.getLast?.map Stmt.endLineno).getD prev.endLineno := by
      rw [List.getLast?_cons]
      cases pre.getLast? <;> rfl
    intro c hc
    exact List.mem_append_right _ (List.mem_append_right _ (ih (hlast ▸ hshared) hc))

/-- A statement, whose source is never blank, comes out whole if no stray line break stands before the
end of its last line. -/
theorem chunkPython_keeps_statement (env : Env) (text : Text) (pre : List Stmt) (node : Stmt)
    (post : List Stmt) (hparse : env.ast.run text = some (pre ++ node :: post))
    (hshared : ∀ prev ∈ pre.getLast?, prev.endLineno < node.firstLine)
    (hsource : node.source text ≠ [])
    (hfits : ((node.source text).length : ℤ) ≤ env.settings.maxChunkChars)
    (hlines : StraysLast node.endLineno text) :
    OccursIn (node.source text) (chunkPython env text) := by
  have hsame : lineSpan (splitlines true text) node.firstLine node.endLineno = node.source text := by
    rw [Stmt.source, lineSpan, lineSpan, sameLines_iff.mpr hlines]
  -- within the limit it is one segment, and packing never cuts a segment
  have hemit : emit env.settings (node.source text) = [node.source text] := by
    rw [emit, if_neg hsource, if_neg (not_lt.mpr hfits)]
  have hlast : (pre.getLast?.map Stmt.endLineno).getD 0 ≤ node.firstLine - 1 := by
    cases h : pre.getLast? with
    | none => exact Nat.zero_le _
    | some prev => exact Nat.le_sub_one_of_lt (hshared prev h)
  have hbody : node.source text ∈
      (chunkBody env.settings (splitlines true text) (pre ++ node :: post) 0).1 := by
    have hsubset : emit env.settings (lineSpan (splitlines true text) node.firstLine node.endLineno) ⊆
        (chunkBody env.settings (splitlines true text) (pre ++ node :: post) 0).1 :=
      emit_subset_chunkBody hlast
    rw [hsame, hemit] at hsubset
    exact hsubset List.mem_cons_self
  simp only [chunkPython, hparse]
  rw [if_neg (List.ne_nil_of_mem (List.mem_append_left _ hbody))]
  exact occursIn_mergeSplits 0 (List.mem_append_left _ hbody)

/-! ## Examples -/

/-- A parser that finds one statement, in the first line. -/
def firstLineAst : AstParse where
  run _ := some [⟨1, 1, []⟩]
  sourceOrder := by
    intro text stmts hrun
    obtain rfl := Option.some_inj.mp hrun
    exact ⟨by simp, List.isChain_singleton _⟩

/-- An assignment of a string literal. -/
def assignment (literal : Text) : Text := "s='".toList ++ literal ++ "'\n".toList

theorem chunkPython_keeps_statement_sample : OccursIn (assignment ['a', 'b']).dropLast
    (chunkPython { Env.sample with ast := firstLineAst } (assignment ['a', 'b'])) := by
  have hsource : Stmt.source ⟨1, 1, []⟩ (assignment ['a', 'b']) = (assignment ['a', 'b']).dropLast := by
    decide
  rw [← hsource]
  refine chunkPython_keeps_statement { Env.sample with ast := firstLineAst } _ [] _ [] rfl (by simp)
    (by decide) (by decide) (sameLines_iff.mp ?_)
  unfold SameLines
  decide

/-- `splitlines` ends a line at the form feed in the literal. -/
theorem chunkPython_cuts_statement : ¬ ∀ (env : Env) (text : Text) (pre : List Stmt) (node : Stmt)
    (post : List Stmt), env.ast.run text = some (pre ++ node :: post) →
    (∀ prev ∈ pre.getLast?, prev.endLineno < node.firstLine) → node.source text ≠ [] →
    ((node.source text).length : ℤ) ≤ env.settings.maxChunkChars →
    OccursIn (node.source text) (chunkPython env text) := by
  intro hkeeps
  obtain ⟨c, hc, hinfix⟩ := hkeeps { Env.sample with ast := firstLineAst } (assignment ['a', '\x0c', 'b'])
    [] ⟨1, 1, []⟩ [] rfl (by simp) (by decide) (by decide)
  have hchunks : chunkPython { Env.sample with ast := firstLineAst } (assignment ['a', '\x0c', 'b']) =
      ["s='a\n\nb'".toList] := by decide +kernel
  rw [hchunks, List.mem_singleton] at hc
  subst hc
  revert hinfix
  decide

end LocalRag
