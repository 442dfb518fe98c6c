-- SUMMARY: When the limit of a question refuses a chat request that the other limits let pass.
import LocalRag.Web.ChatRequests

/-!
# The question limit

A question is part of a message, which has a limit of its own. The items of a message are
joined with blanks that its size does not count.
-/

namespace LocalRag.ApiServer

open PyText

variable {settings : Settings} {messages : List ChatMessage} {message : ChatMessage}

/-! ## The length of a question -/

def itemText (item : ContentItem) : Text := (item.lookup "text".toList).getD []

theorem question_items (items : List ContentItem) :
    (Content.items items).question = join [' '] (items.map itemText) := rfl

theorem messageSize_cons (item : ContentItem) (items : List ContentItem) :
    messageSize (.items (item :: items)) =
      (item.map fun entry => entry.2.length).sum + messageSize (.items items) := by
  rw [messageSize, List.flatMap_cons, List.sum_append]
  rfl

theorem length_itemText_le (item : ContentItem) :
    (itemText item).length ≤ (item.map fun entry => entry.2.length).sum := by
  unfold itemText
  cases hlookup : item.lookup "text".toList with
  | none => exact Nat.zero_le _
  | some text =>
    obtain ⟨before, after, hitem, -⟩ := List.lookup_eq_some_iff.mp hlookup
    have hmem : ("text".toList, text) ∈ item := by
      rw [hitem]
      simp
    exact List.single_le_sum (fun _ _ => Nat.zero_le _) _ (List.mem_map_of_mem hmem)

theorem sum_itemText_le (items : List ContentItem) :
    ((items.map itemText).map List.length).sum ≤ messageSize (.items items) := by
  induction items with
  | nil => exact le_refl 0
  | cons item items ih =>
    rw [messageSize_cons]
    exact Nat.add_le_add (length_itemText_le item) ih

/-- Between two items stands a blank. -/
theorem length_question_le {content : Content} (hpos : 0 < settings.maxChatContentItems)
    (hitems : content.hasTooManyItems settings = false) :
    content.question.length + 1 ≤ messageSize content + settings.maxChatContentItems := by
  cases content with
  | text content =>
    change (content.length : ℤ) + 1 ≤ content.length + settings.maxChatContentItems
    omega
  | items content =>
    have hcount : content.length ≤ settings.maxChatContentItems := by
      simpa [Content.hasTooManyItems] using hitems
    rw [question_items]
    by_cases hempty : content = []
    · subst hempty
      change (0 : ℤ) + 1 ≤ 0 + settings.maxChatContentItems
      omega
    · have hjoin := length_join_add [' '] (mt List.map_eq_nil_iff.mp hempty : content.map itemText ≠ [])
      have hsum := sum_itemText_le content
      rw [List.length_singleton, List.sum_map_add, List.map_const', List.sum_replicate_nat, List.length_map,
        mul_one] at hjoin
      omega

/-- The blanks apart, a question has no more characters than its message. -/
theorem length_nw_question_le (content : Content) :
    (nw content.question).length ≤ messageSize content := by
  cases content with
  | text content => exact List.length_filter_le _ _
  | items content =>
    rw [question_items, nw_join rfl, List.length_flatten, List.map_map]
    refine (List.sum_le_sum fun item _ => List.length_filter_le _ _).trans ?_
    have hsum := sum_itemText_le content
    rw [List.map_map] at hsum ⊢
    exact hsum

/-! ## What the limit refuses -/

/-- The most characters of a message. -/
def messageLimit (settings : Settings) : ℤ :=
  min settings.maxChatMessageChars settings.maxChatTotalChars

theorem size_le_messageLimit (hwithin : WithinLimits settings messages) (hmem : message ∈ messages) :
    messageSize message.content ≤ messageLimit settings := by
  have hsum : messageSize message.content ≤ (messages.map fun message => messageSize message.content).sum :=
    List.single_le_sum (fun _ _ => Nat.zero_le _) _ (List.mem_map_of_mem hmem)
  exact le_min (hwithin.sizes message hmem) (le_trans (by exact_mod_cast hsum) hwithin.total)

/-- The last check of `extract_question_from_messages` refuses the messages. -/
def QuestionTooLong (settings : Settings) (messages : List ChatMessage) : Prop :=
  extractQuestionFromMessages settings messages = .error (.badRequest "Question exceeds size limit")

theorem badRequest_ne {detail detail' : String} (h : detail.toList ≠ detail'.toList) :
    Exn.badRequest detail ≠ Exn.badRequest detail' := by
  intro heq
  exact h (Exn.http.inj heq).2

theorem questionTooLong_iff (hpos : 0 < settings.maxChatQuestionChars) :
    QuestionTooLong settings messages ↔
    ∃ message, LatestUser messages message ∧
      settings.maxChatQuestionChars < (strip message.content.question).length := by
  unfold QuestionTooLong extractQuestionFromMessages
  constructor
  · intro h
    split at h
    · exact absurd (Except.error.inj h) (badRequest_ne (by decide))
    · next message hfind =>
      dsimp only at h
      split at h
      · exact absurd (Except.error.inj h) (badRequest_ne (by decide))
      · split at h
        · next hlong => exact ⟨message, find_reverse_eq_some_iff.mp hfind, hlong⟩
        · cases h
  · rintro ⟨message, hlatest, hlong⟩
    have hempty : strip message.content.question ≠ [] := by
      intro hempty
      rw [hempty, List.length_nil] at hlong
      exact absurd (hpos.trans hlong) (lt_irrefl 0)
    rw [find_reverse_eq_some_iff.mpr hlatest]
    dsimp only
    rw [if_neg hempty, if_pos hlong]

theorem LatestUser.mem (h : LatestUser messages message) : message ∈ messages := by
  obtain ⟨before, after, rfl, -⟩ := h
  simp

theorem messageLimit_of_tooLong (haccepted : settings.Accepted)
    (hwithin : WithinLimits settings messages)
    (hlong : QuestionTooLong settings messages) :
    2 ≤ messageLimit settings ∧
      settings.maxChatQuestionChars + 1 < messageLimit settings + settings.maxChatContentItems := by
  have hquestion := haccepted.maxChatQuestionChars_pos
  have hitems := haccepted.maxChatContentItems_pos
  obtain ⟨message, hlatest, hlong⟩ := (questionTooLong_iff hquestion).mp hlong
  have hsize := size_le_messageLimit hwithin hlatest.mem
  constructor
  · by_contra hlimit
    have hone : (nw message.content.question).length ≤ 1 := by
      have hnw := length_nw_question_le message.content
      omega
    have hstrip := length_strip_le_one hone
    omega
  · have hstrip := length_strip_le message.content.question
    have hlength := length_question_le hitems (hwithin.items message hlatest.mem)
    omega

/-! ## A question that is refused -/

/-- Items without a text, between one of `m + 1` characters and one of a single character. -/
def longItems (m j : ℕ) : List ContentItem :=
  [("text".toList, 'x' :: List.replicate m 'x')] ::
    (List.replicate j [("text".toList, [])] ++ [[("text".toList, ['x'])]])

/-- A message of `m + 2` characters, in `k` items if these are two or more. -/
def longContent (m : ℕ) : ℕ → Content
  | 0 | 1 => .text ('x' :: (List.replicate m 'x' ++ ['x']))
  | j + 2 => .items (longItems m j)

theorem messageSize_longContent (m k : ℕ) : messageSize (longContent m k) = m + 2 := by
  match k with
  | 0 | 1 => simp [longContent, messageSize]
  | j + 2 =>
    have hrest : messageSize
        (.items (List.replicate j [("text".toList, [])] ++ [[("text".toList, ['x'])]])) = 1 := by
      induction j with
      | zero => rfl
      | succ j ih =>
        rw [List.replicate_succ, List.cons_append, messageSize_cons, ih]
        rfl
    rw [longContent, longItems, messageSize_cons, hrest]
    simp

theorem hasTooManyItems_longContent {m k : ℕ} (hk : k ≤ settings.maxChatContentItems) :
    (longContent m k).hasTooManyItems settings = false := by
  match k with
  | 0 | 1 => rfl
  | j + 2 =>
    have hcount : (longItems m j).length = j + 2 := by simp [longItems]
    simp only [longContent, Content.hasTooManyItems, hcount, decide_eq_false_iff_not, not_lt]
    exact hk

theorem itemText_longItems (m j : ℕ) : (longItems m j).map itemText =
    ('x' :: List.replicate m 'x') :: (List.replicate j [] ++ [['x']]) := by
  simp [longItems, itemText]

theorem length_strip_longContent (m : ℕ) {k : ℕ} (hk : 0 < k) :
    (strip (longContent m k).question).length + 1 = m + 2 + k := by
  match k with
  | 1 =>
    rw [longContent, Content.question, strip_eq_self rfl rfl]
    simp
  | j + 2 =>
    -- The last item makes the text end with a character that is no blank.
    obtain ⟨front, hfront⟩ : ∃ front, join [' '] (List.replicate j [] ++ [['x']]) = front ++ ['x'] := by
      cases j with
      | zero => exact ⟨[], rfl⟩
      | succ j =>
        rw [join_append_of_ne_nil [' '] (by simp) (List.cons_ne_nil _ _)]
        exact ⟨_, rfl⟩
    have hquestion : (longContent m (j + 2)).question =
        'x' :: ((List.replicate m 'x' ++ [' '] ++ front) ++ ['x']) := by
      rw [longContent, question_items, itemText_longItems, join_cons_of_ne_nil _ _ (by simp), hfront]
      simp
    have hlength :=
      length_join_add [' '] (List.cons_ne_nil ('x' :: List.replicate m 'x') (List.replicate j [] ++ [['x']]))
    rw [← itemText_longItems, ← question_items] at hlength
    rw [hquestion, strip_eq_self rfl rfl, ← hquestion]
    simp [itemText_longItems] at hlength
    change (Content.items (longItems m j)).question.length + 1 = m + 2 + (j + 2)
    omega

/-- Some request passes `validate_chat_request` and is refused for its question's length alone, exactly
if the longest message that passes has two characters or more and is longer than a question may be when
blanks join its items. -/
theorem questionLimit_refuses_iff (settings : Settings) (haccepted : settings.Accepted) :
    (∃ req : ChatRequest settings, validateChatRequest req = .ok () ∧ QuestionTooLong settings req.messages) ↔
      2 ≤ messageLimit settings ∧
        settings.maxChatQuestionChars + 1 < messageLimit settings + settings.maxChatContentItems := by
  constructor
  · rintro ⟨req, hvalid, hlong⟩
    exact messageLimit_of_tooLong haccepted ((withinLimits_iff haccepted).mp hvalid) hlong
  · rintro ⟨htwo, hlimit⟩
    obtain ⟨m, hm⟩ : ∃ m : ℕ, (m : ℤ) + 2 = messageLimit settings :=
      ⟨(messageLimit settings - 2).toNat, by omega⟩
    have hitems := haccepted.maxChatContentItems_pos
    obtain ⟨k, hk⟩ : ∃ k : ℕ, (k : ℤ) = settings.maxChatContentItems := ⟨_, Int.toNat_of_nonneg hitems.le⟩
    have hsize := messageSize_longContent m k
    have hwithin : WithinLimits settings [⟨.user, longContent m k⟩] := by
      refine ⟨?_, ?_, ?_⟩
      · simp only [List.forall_mem_singleton, hsize]
        exact le_trans (by push_cast; exact hm.le) (min_le_left _ _)
      · simp only [List.forall_mem_singleton]
        exact hasTooManyItems_longContent hk.le
      · simp only [List.map_singleton, List.sum_singleton, hsize]
        exact le_trans (by push_cast; exact hm.le) (min_le_right _ _)
    have hlength := length_strip_longContent m (by omega : 0 < k)
    refine ⟨singleRequest settings haccepted (longContent m k), (withinLimits_iff haccepted).mpr hwithin, ?_⟩
    refine (questionTooLong_iff haccepted.maxChatQuestionChars_pos).mpr ⟨_, latestUser_singleton _, ?_⟩
    dsimp only
    omega

/-- With the default settings every question fits. -/
theorem questionLimit_refuses_iff_defaults :
    ¬ ∃ req : ChatRequest {}, validateChatRequest req = .ok () ∧ QuestionTooLong {} req.messages :=
  fun h => absurd ((questionLimit_refuses_iff {} defaults_accepted).mp h).2 (by decide)

end LocalRag.ApiServer
