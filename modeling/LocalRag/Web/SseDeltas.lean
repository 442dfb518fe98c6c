-- SUMMARY: The web UI's reader of streamed answers (`web/static/app.js`): what it decodes of what the server encodes.
import LocalRag.Base.Lines
import LocalRag.Web.OpenaiCompat

/-!
# Deltas of a stream

The web UI reads the bytes of a streamed answer, however the network cuts them, and
yields the contents of the chunks.
-/

namespace LocalRag.SseDeltas

open PyText OpenaiCompat

/-! ## Reading values -/

/-- `value?.key`. -/
def property (key : Text) : Option Json → Option Json
  | some (.obj fields) => fields.lookup key
  | _ => none

/-- `value?.[0]`. -/
def first : Option Json → Option Json
  | some (.arr items) => items.head?
  | some (.str t) => t.head?.map fun c => .str [c]
  | some (.obj fields) => fields.lookup ['0']
  | _ => none

def truthy : Json → Bool
  | .null => false
  | .bool b => b
  | .num n => n ≠ 0
  | .str t => t ≠ []
  | .arr _ | .obj _ => true

/-- What `String.prototype.trim` removes: whitespace and line terminators. -/
def isTrimmed (c : Char) : Bool :=
  let n := c.toNat
  (0x09 ≤ n && n ≤ 0x0D) || n == 0x20 || n == 0xA0 || n == 0x1680 || (0x2000 ≤ n && n ≤ 0x200A) ||
  n == 0x2028 || n == 0x2029 || n == 0x202F || n == 0x205F || n == 0x3000 || n == 0xFEFF

def trim (t : Text) : Text := (t.dropWhile isTrimmed).rdropWhile isTrimmed

/-! ## The reader -/

def asciiText (bytes : List UInt8) : Text := bytes.map fun b => Char.ofNat b.toNat

/-- `TextDecoder`, called with `stream: true`. In an idle state it holds no bytes back. -/
structure TextDecoder where
  State : Type
  new : State
  decode : State → List UInt8 → Text × State
  Idle : State → Prop
  idle_new : Idle new
  decode_ascii : ∀ state bytes, Idle state → (∀ b ∈ bytes, b.toNat < 0x80) →
    (decode state bytes).1 = asciiText bytes ∧ Idle (decode state bytes).2

variable (parse : Text → Option Json) (decoder : TextDecoder)

/-- `chunk?.choices?.[0]?.delta?.content`. -/
def chunkContent (chunk : Json) : Option Json :=
  let choices := property "choices".toList (some chunk)
  property "content".toList (property "delta".toList (first choices))

/-- What a line yields, with `JSON.parse`. -/
def lineDelta (line : Text) : Option Json :=
  if ¬ "data: ".toList.isPrefixOf line then none
  else
    let payload := trim (line.drop "data: ".toList.length)
    if payload = "[DONE]".toList then none
    else match parse payload with
    | none => none
    | some chunk => (chunkContent chunk).filter truthy

/-- The loop of `_iterSSEDeltas`, over the reads that are left. -/
def deltasFrom : decoder.State → Text → List (List UInt8) → List Json
  | _, _, [] => []
  | state, buf, value :: reads =>
    let decoded := decoder.decode state value
    let lines := (buf ++ decoded.1).splitOn '\n'
    lines.dropLast.filterMap (lineDelta parse) ++ deltasFrom decoded.2 (lines.getLastD []) reads

/-- `_iterSSEDeltas`. -/
def iterSSEDeltas (reads : List (List UInt8)) : List Json := deltasFrom parse decoder decoder.new [] reads

/-! ## The bytes of an answer -/

/-- `chunk.encode("utf-8")`. -/
def encodeUtf8 (t : Text) : List UInt8 := t.flatMap String.utf8EncodeChar

variable {parse decoder}

theorem utf8EncodeChar_ascii {c : Char} (hc : c.toNat < 0x80) :
    (String.utf8EncodeChar c).map (fun b => Char.ofNat b.toNat) = [c] ∧
      ∀ b ∈ String.utf8EncodeChar c, b.toNat < 0x80 := by
  have hsize : c.utf8Size = 1 := by
    rw [Char.utf8Size_eq_one_iff, UInt32.le_iff_toNat_le]
    exact Nat.le_of_lt_succ hc
  have hbyte : c.val.toUInt8.toNat = c.toNat := by
    rw [UInt32.toNat_toUInt8]
    exact Nat.mod_eq_of_lt (lt_trans hc (by decide))
  rw [String.utf8EncodeChar_eq_singleton hsize]
  refine ⟨?_, fun b hb => ?_⟩
  · rw [List.map_singleton, hbyte, Char.ofNat_toNat]
  · rw [List.mem_singleton.mp hb, hbyte]
    exact hc

theorem encodeUtf8_ascii {t : Text} (ht : ∀ c ∈ t, c.toNat < 0x80) :
    asciiText (encodeUtf8 t) = t ∧ ∀ b ∈ encodeUtf8 t, b.toNat < 0x80 := by
  induction t with
  | nil => exact ⟨rfl, nofun⟩
  | cons c t ih =>
    obtain ⟨htext, hbytes⟩ := ih fun d hd => ht d (List.mem_cons_of_mem _ hd)
    obtain ⟨hchar, hchars⟩ := utf8EncodeChar_ascii (ht c (List.mem_cons_self ..))
    refine ⟨?_, fun b hb => ?_⟩
    · rw [encodeUtf8, List.flatMap_cons, asciiText, List.map_append, hchar]
      exact congrArg (c :: ·) htext
    · rcases List.mem_append.mp hb with hb | hb
      · exact hchars b hb
      · exact hbytes b hb

/-- The reader yields what the lines yield. -/
theorem deltasFrom_eq {state : decoder.State} (hidle : decoder.Idle state) (buf : Text)
    {reads : List (List UInt8)} (hreads : ∀ b ∈ reads.flatten, b.toNat < 0x80) :
    deltasFrom parse decoder state buf reads =
      (Lines.readLines '\n' buf (reads.map asciiText)).filterMap (lineDelta parse) := by
  induction reads generalizing state buf with
  | nil => rfl
  | cons value reads ih =>
    obtain ⟨htext, hidle'⟩ := decoder.decode_ascii state value hidle fun b hb =>
      hreads b (List.mem_append_left _ hb)
    have hrest := ih hidle' ((buf ++ asciiText value).splitOn '\n' |>.getLastD []) fun b hb =>
      hreads b (List.mem_append_right _ hb)
    rw [deltasFrom, List.map_cons, Lines.readLines, List.filterMap_append]
    rw [htext, hrest]

/-- The lines of an event. -/
def eventLines (payload : Text) : List Text := ["data: ".toList ++ payload, []]

theorem sseEvent_lines (payloads : List Text) :
    (payloads.map sseEvent).flatten = ((payloads.flatMap eventLines).map (· ++ ['\n'])).flatten := by
  induction payloads with
  | nil => rfl
  | cons payload payloads ih =>
    have hevent : ((eventLines payload).map (· ++ ['\n'])).flatten = sseEvent payload :=
      List.append_assoc ("data: ".toList ++ payload) ['\n'] ['\n']
    rw [List.map_cons, List.flatten_cons, ih, List.flatMap_cons, List.map_append, List.flatten_append,
      hevent]

theorem lineDelta_nil : lineDelta parse [] = none := rfl

theorem lineDelta_data (payload : Text) :
    lineDelta parse ("data: ".toList ++ payload) =
      if trim payload = "[DONE]".toList then none
      else match parse (trim payload) with
      | none => none
      | some chunk => (chunkContent chunk).filter truthy := by
  have hprefix : "data: ".toList.isPrefixOf ("data: ".toList ++ payload) = true :=
    List.isPrefixOf_iff_prefix.mpr (List.prefix_append ..)
  rw [lineDelta, hprefix, List.drop_left]
  rfl

/-- Braces are not trimmed. -/
theorem trim_dumps_obj (fields : List (Text × Json)) :
    trim (Json.dumps (.obj fields)) = Json.dumps (.obj fields) := by
  have hopen : (Json.dumps (.obj fields)).dropWhile isTrimmed = Json.dumps (.obj fields) := by
    rw [Json.dumps, List.cons_append]
    exact List.dropWhile_cons_of_neg (by decide)
  rw [trim, hopen, Json.dumps]
  exact List.rdropWhile_concat_neg _ _ _ (by decide)

theorem dumps_obj_ne_done (fields : List (Text × Json)) : Json.dumps (.obj fields) ≠ "[DONE]".toList := by
  intro h
  rw [Json.dumps, List.cons_append] at h
  exact absurd (List.cons.inj h).1 (by decide)

theorem chunkContent_streamChunk (requestId : Text) (created : ℤ) (model : Text)
    (content finishReason : Option Text) :
    chunkContent (streamChunk requestId created model content finishReason) = content.map .str := by
  cases content <;> rfl

/-- The reader yields the contents that are not empty. -/
theorem lineDelta_streamChunk {requestId : Text} {created : ℤ} {model : Text}
    {content finishReason : Option Text}
    (hparse : parse (Json.dumps (streamChunk requestId created model content finishReason)) =
      some (streamChunk requestId created model content finishReason)) :
    lineDelta parse ("data: ".toList ++
      Json.dumps (streamChunk requestId created model content finishReason)) =
        (content.filter (· ≠ [])).map .str := by
  rw [lineDelta_data, streamChunk, trim_dumps_obj, if_neg (dumps_obj_ne_done _), ← streamChunk, hparse]
  dsimp only
  rw [chunkContent_streamChunk]
  cases content with
  | none => rfl
  | some content => cases content <;> rfl

/-- What is written between the newlines. -/
def payloads (requestId : Text) (created : ℤ) (model : Text) (contents : List Text) : List Text :=
  contents.map (fun content => Json.dumps (streamChunk requestId created model (some content) none)) ++
    [Json.dumps (streamChunk requestId created model none (some "stop".toList)), "[DONE]".toList]

theorem answerEvents_eq (requestId : Text) (created : ℤ) (model : Text) (contents : List Text) :
    answerEvents requestId created model contents =
      (payloads requestId created model contents).map sseEvent := by
  rw [payloads, List.map_append, List.map_map]
  rfl

theorem printable_payloads {requestId : Text} {created : ℤ} {model : Text} {contents : List Text}
    {payload : Text} (hpayload : payload ∈ payloads requestId created model contents) :
    Json.Printable payload := by
  rcases List.mem_append.mp hpayload with hpayload | hpayload
  · obtain ⟨content, -, rfl⟩ := List.mem_map.mp hpayload
    exact Json.printable_dumps _
  · rcases List.mem_pair.mp hpayload with rfl | rfl
    · exact Json.printable_dumps _
    · decide

/-- The lines are printable, so no line is broken and no byte is beyond ASCII. -/
theorem printable_eventLines {payloads : List Text} (hpayloads : ∀ payload ∈ payloads, Json.Printable payload)
    {line : Text} (hline : line ∈ payloads.flatMap eventLines) : Json.Printable line := by
  obtain ⟨payload, hpayload, hline⟩ := List.mem_flatMap.mp hline
  rcases List.mem_pair.mp hline with rfl | rfl
  · exact .append (by decide) (hpayloads payload hpayload)
  · exact Json.printable_nil

theorem filterMap_eventLines (payloads : List Text) :
    (payloads.flatMap eventLines).filterMap (lineDelta parse) =
      payloads.filterMap fun payload => lineDelta parse ("data: ".toList ++ payload) := by
  induction payloads with
  | nil => rfl
  | cons payload payloads ih =>
    rw [List.flatMap_cons, List.filterMap_append, ih, eventLines, List.filterMap_cons, List.filterMap_cons,
      lineDelta_nil, List.filterMap_nil, List.filterMap_cons]
    cases lineDelta parse ("data: ".toList ++ payload) <;> rfl

/-- The payloads yield the contents that are not empty. -/
theorem filterMap_payloads {requestId : Text} {created : ℤ} {model : Text}
    (hparse : ∀ content finishReason,
      parse (Json.dumps (streamChunk requestId created model content finishReason)) =
        some (streamChunk requestId created model content finishReason)) (contents : List Text) :
    ((payloads requestId created model contents).filterMap fun payload =>
      lineDelta parse ("data: ".toList ++ payload)) = (contents.filter (· ≠ [])).map .str := by
  have hstop : lineDelta parse ("data: ".toList ++
      Json.dumps (streamChunk requestId created model none (some "stop".toList))) = none :=
    lineDelta_streamChunk (hparse none (some "stop".toList))
  have hdone : lineDelta parse ("data: ".toList ++ "[DONE]".toList) = none := rfl
  induction contents with
  | nil =>
    rw [payloads, List.map_nil, List.nil_append, List.filterMap_cons, hstop, List.filterMap_cons, hdone]
    rfl
  | cons content contents ih =>
    rw [payloads, List.map_cons, List.cons_append, ← payloads, List.filterMap_cons,
      lineDelta_streamChunk (hparse _ _), ih]
    cases content <;> rfl

/-- However the bytes of an answer are cut into reads, the web UI yields the contents that are not
empty, in their order. `JSON.parse` is to read back what `json.dumps` writes of the chunks. -/
theorem iterSSEDeltas_answerEvents (parse : Text → Option Json) (decoder : TextDecoder) (requestId : Text)
    (created : ℤ) (model : Text) (contents : List Text)
    (hparse : ∀ content finishReason,
      parse (Json.dumps (streamChunk requestId created model content finishReason)) =
        some (streamChunk requestId created model content finishReason))
    (reads : List (List UInt8))
    (hreads : reads.flatten = encodeUtf8 (answerEvents requestId created model contents).flatten) :
    iterSSEDeltas parse decoder reads = (contents.filter (· ≠ [])).map .str := by
  have hpayloads : ∀ payload ∈ payloads requestId created model contents, Json.Printable payload :=
    fun _ => printable_payloads
  have hlines : ∀ line ∈ (payloads requestId created model contents).flatMap eventLines, '\n' ∉ line := by
    intro line hline hnewline
    have hprintable := printable_eventLines hpayloads hline _ hnewline
    exact absurd hprintable.1 (by decide)
  have htext : (answerEvents requestId created model contents).flatten =
      (((payloads requestId created model contents).flatMap eventLines).map (· ++ ['\n'])).flatten := by
    rw [answerEvents_eq, sseEvent_lines]
  have hascii : ∀ c ∈ (answerEvents requestId created model contents).flatten, c.toNat < 0x80 := by
    intro c hc
    rw [htext] at hc
    obtain ⟨_, hline, hc⟩ := List.mem_flatten.mp hc
    obtain ⟨line, hmem, rfl⟩ := List.mem_map.mp hline
    rcases List.mem_append.mp hc with hc | hc
    · exact lt_of_le_of_lt (printable_eventLines hpayloads hmem c hc).2 (by decide)
    · rw [List.mem_singleton.mp hc]
      decide
  obtain ⟨hencoded, hbytes⟩ := encodeUtf8_ascii hascii
  have hreads' : (reads.map asciiText).flatten =
      (((payloads requestId created model contents).flatMap eventLines).map (· ++ ['\n'])).flatten := by
    rw [← htext, ← hencoded, ← hreads, asciiText, List.map_flatten]
    rfl
  rw [iterSSEDeltas, deltasFrom_eq decoder.idle_new [] (hreads ▸ hbytes),
    Lines.readLines_lines '\n' hlines hreads', filterMap_eventLines]
  exact filterMap_payloads hparse contents

/-! ## Example -/

/-- A decoder of ASCII. -/
def TextDecoder.ascii : TextDecoder where
  State := Unit
  new := ()
  decode := fun _ bytes => (asciiText bytes, ())
  Idle := fun _ => True
  idle_new := trivial
  decode_ascii := fun _ _ _ _ => ⟨rfl, trivial⟩

def sampleContents : List Text := ["1\ndata: [DONE]\n\n".toList, [], "“2”".toList]

/-- Contents that look like events, read byte by byte. -/
theorem iterSSEDeltas_answerEvents_sample :
    iterSSEDeltas Json.parse .ascii
      ((encodeUtf8 (answerEvents "chatcmpl-7".toList 5 [] sampleContents).flatten).map fun b => [b]) =
      [.str "1\ndata: [DONE]\n\n".toList, .str "“2”".toList] :=
  iterSSEDeltas_answerEvents Json.parse .ascii "chatcmpl-7".toList 5 [] sampleContents
    (fun _ _ => Json.parse_dumps _) _ (List.flatMap_singleton' _)

end LocalRag.SseDeltas
