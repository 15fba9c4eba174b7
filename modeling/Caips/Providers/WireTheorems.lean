/-
Caips.Providers.WireTheorems — the adapters keep the conversation.

For a regular request the messages of each format say the turns of the request
(`adapters_keep_conversation`). OpenAI's format has one message for each message;
Anthropic's and Gemini's add a result to the last message when that one ends in
results, which `Built` of the dialogue library stands for. Gemini's results carry the
name of the function instead of the id: that the same calls are answered is the
library's `read_forget`, for the names by position.
-/
import Caips.Providers.BaseTheorems
import Caips.Providers.Wire
import Caips.Logic.Sync

namespace Caips.Providers

open Caips.Logic Caips.Logic.Dialogue

variable {loads : String → Except String Json} {b64decode : String → Option (List UInt8)}

/-! ## Messages -/

/-- A message the formats can carry. -/
structure Message.Carried (loads : String → Except String Json) (b64decode : String → Option (List UInt8))
    (m : Message) : Prop where
  role : m.role = "user" ∨ m.role = "assistant" ∨ m.role = "tool"
  arguments : m.role = "assistant" → ∀ c ∈ m.toolCalls.getD [],
    c.arguments ≠ "" ∧ ∃ members, loads c.arguments = .ok (.obj members)
  images : nonempty m.images = true → m.role = "user" ∧ ∀ i ∈ m.images.getD [], i.Inline b64decode

theorem Regular.carried {r : CompletionRequest} (h : Regular loads b64decode r) :
    ∀ m ∈ (splitSystem r).2, m.Carried loads b64decode := by
  intro m hm
  have hvalid := (validateConversation_ok_iff.mp h.valid).roles m (List.mem_of_mem_filter hm)
  have hsystem : m.role ≠ "system" := by simpa using (List.mem_filter.mp hm).2
  refine ⟨?_, h.arguments m hm, h.images m hm⟩
  simp only [validRoles, List.mem_cons, List.not_mem_nil, or_false] at hvalid
  tauto

theorem argumentsOf_eq {raw : String} {members : List (List Char × Json)} (h : loads raw = .ok (.obj members)) :
    argumentsOf loads raw = some members := by
  unfold argumentsOf
  rw [h]

theorem parseArguments_eq {raw : String} {members : List (List Char × Json)} (hne : raw ≠ "")
    (h : loads raw = .ok (.obj members)) : parseArguments loads raw = members := by
  unfold parseArguments
  rw [if_neg hne, h]

theorem mapM_map_option {α β γ : Type} (f : β → Option γ) (g : α → β) (l : List α) :
    (l.map g).mapM f = l.mapM fun a => f (g a) := by
  induction l with
  | nil => rfl
  | cons a l ih => simp [ih]

theorem mapM_congr_option {α β : Type} {f g : α → Option β} : ∀ {l : List α}, (∀ a ∈ l, f a = g a) →
    l.mapM f = l.mapM g
  | [], _ => rfl
  | a :: l, h => by
      rw [List.mapM_cons, List.mapM_cons, h a List.mem_cons_self,
        mapM_congr_option fun b hb => h b (List.mem_cons_of_mem _ hb)]

theorem mapM_eq_map {α β : Type} {f : α → Option β} {g : α → β} : ∀ {l : List α}, (∀ a ∈ l, f a = some (g a)) →
    l.mapM f = some (l.map g)
  | [], _ => rfl
  | a :: l, h => by
      rw [List.mapM_cons, h a List.mem_cons_self, mapM_eq_map fun b hb => h b (List.mem_cons_of_mem _ hb)]
      rfl

theorem nonempty_eq_false {α : Type} {l : Option (List α)} (h : nonempty l = false) : l.getD [] = [] := by
  unfold nonempty at h
  simpa using h

/-! ## OpenAI -/

/-- An inline image's data URL is read as its picture. -/
theorem urlPicture_imageUrl {i : Image} (h : i.Inline b64decode) :
    OpenAI.urlPicture b64decode (imageUrl i) = i.picture b64decode := by
  obtain ⟨mediaType, data, rfl, hcomma, -, -⟩ := h
  have hlist : (imageUrl (.inline mediaType data)).toList =
      "data:".toList ++ ((mediaType.toList ++ ";base64".toList) ++ ',' :: data.toList) := by
    simp [imageUrl, String.toList_append]
  have hmark : ',' ∉ ";base64".toList := by decide
  have hhead : ∀ c ∈ mediaType.toList ++ ";base64".toList, c ≠ ',' := by
    intro c hc
    rcases List.mem_append.mp hc with hc | hc
    · rintro rfl
      exact hcomma hc
    · rintro rfl
      exact hmark hc
  have htake : ((mediaType.toList ++ ";base64".toList) ++ ',' :: data.toList).takeWhile (· ≠ ',') =
      mediaType.toList ++ ";base64".toList := by
    rw [List.takeWhile_append_of_pos (by simpa using hhead)]
    simp
  have hdrop : ((mediaType.toList ++ ";base64".toList) ++ ',' :: data.toList).dropWhile (· ≠ ',') =
      ',' :: data.toList := by
    rw [List.dropWhile_append_of_pos (by simpa using hhead)]
    simp
  unfold OpenAI.urlPicture
  dsimp only
  rw [hlist, if_pos (by simp), List.drop_left, htake, hdrop, if_pos (by simp)]
  simp [Image.picture]

theorem content_parts (text : String) (urls : List String) :
    let parts := (if text = "" then [] else [OpenAIPart.text text]) ++ urls.map .imageUrl
    OpenAI.Content.text (.parts parts) = text ∧ OpenAI.Content.urls (.parts parts) = urls := by
  have htext : (urls.map OpenAIPart.imageUrl).filterMap OpenAI.Part.text? = [] := by
    rw [List.filterMap_map]
    exact List.filterMap_eq_nil_iff.mpr fun _ _ => rfl
  have hurls : (urls.map OpenAIPart.imageUrl).filterMap OpenAI.Part.url? = urls := by
    rw [List.filterMap_map]
    exact List.filterMap_some
  unfold OpenAI.Content.text OpenAI.Content.urls
  by_cases h : text = ""
  · simp [h, htext, hurls]
  · rw [if_neg h]
    refine ⟨?_, ?_⟩
    · simp [htext, OpenAI.Part.text?]
    · rw [List.singleton_append]
      dsimp only
      rw [List.filterMap_cons_none (by rfl), hurls]

variable {m : Message}

/-- A message of OpenAI's says what it was made from. -/
theorem entry_openaiMessage (h : m.Carried loads b64decode) :
    OpenAI.entry loads b64decode (openaiMessage m) = m.entry loads b64decode := by
  unfold openaiMessage Message.entry
  by_cases htool : m.role = "tool"
  · simp [htool, OpenAI.entry, OpenAI.Content.text]
  rw [if_neg htool, if_neg htool]
  by_cases hassistant : m.role = "assistant"
  · have himages : nonempty m.images = false := by
      by_contra hnot
      have huser := (h.images (Bool.not_eq_false _ ▸ hnot)).1
      rw [hassistant] at huser
      exact absurd huser (by decide)
    rw [if_pos hassistant]
    by_cases hcalls : nonempty m.toolCalls = true
    · have htext : OpenAI.Content.text (if m.content = "" then .null else .text m.content) = m.content := by
        by_cases hc : m.content = "" <;> simp [hc, OpenAI.Content.text]
      have hsame : ((m.toolCalls.getD []).map fun c => { c with arguments := textOr (some c.arguments) "{}" }) =
          m.toolCalls.getD [] := by
        refine (List.map_congr_left fun c hc => ?_).trans (List.map_id _)
        have hne := (h.arguments hassistant c hc).1
        simp [textOr, Option.filter, hne]
      rw [if_pos ⟨hassistant, hcalls⟩]
      unfold OpenAI.entry
      dsimp only
      rw [if_neg (by decide), if_pos rfl, htext, hsame]
    · rw [if_neg fun hboth => hcalls hboth.2, if_neg (by simp [himages])]
      unfold OpenAI.entry
      dsimp only
      rw [if_neg htool, if_pos hassistant, nonempty_eq_false (by simpa using hcalls)]
      rfl
  · have huser : m.role = "user" := by
      rcases h.role with hr | hr | hr
      · exact hr
      · exact absurd hr hassistant
      · exact absurd hr htool
    rw [if_neg hassistant, if_neg fun hboth => hassistant hboth.1]
    by_cases himages : nonempty m.images = true
    · have hparts := content_parts m.content ((m.images.getD []).map imageUrl)
      rw [List.map_map, Function.comp_def] at hparts
      rw [if_pos himages]
      unfold OpenAI.entry
      dsimp only
      rw [if_neg htool, if_neg hassistant, if_pos huser, hparts.1, hparts.2, mapM_map_option,
        mapM_congr_option fun i hi => urlPicture_imageUrl ((h.images himages).2 i hi)]
    · rw [if_neg himages, nonempty_eq_false (by simpa using himages)]
      unfold OpenAI.entry
      dsimp only
      rw [if_neg htool, if_neg hassistant, if_pos huser]
      rfl

theorem role_openaiMessage (m : Message) : (openaiMessage m).role = m.role := by
  unfold openaiMessage
  by_cases htool : m.role = "tool"
  · rw [if_pos htool, htool]
  rw [if_neg htool]
  by_cases hcalls : m.role = "assistant" ∧ nonempty m.toolCalls
  · rw [if_pos hcalls, hcalls.1]
  rw [if_neg hcalls]
  by_cases himages : nonempty m.images = true
  · rw [if_pos himages]
  · rw [if_neg himages]

/-- The system text is absent or says something. -/
theorem splitSystem_fst (r : CompletionRequest) : ∀ s ∈ (splitSystem r).1, s ≠ "" := by
  unfold splitSystem
  dsimp only
  intro s hs
  split at hs
  · cases hs
  · rename_i hparts
    obtain rfl := Option.mem_some_iff.mp hs
    generalize hl : (r.systemPrompt.filter (· ≠ "")).toList ++
      ((r.messages.filter fun m => m.role = "system").map Message.content).filter (· ≠ "") = l at hparts
    have hne : ∀ t ∈ l, t ≠ "" := by
      intro t ht
      rw [← hl] at ht
      rcases List.mem_append.mp ht with ht | ht
      · simpa using (Option.filter_eq_some_iff.mp (Option.mem_toList.mp ht)).2
      · simpa using (List.mem_filter.mp ht).2
    cases l with
    | nil => exact absurd rfl hparts
    | cons t l =>
      intro hempty
      have hlist := congrArg String.toList hempty
      cases l with
      | nil =>
        rw [String.intercalate_singleton] at hempty
        exact hne t List.mem_cons_self hempty
      | cons u l =>
        rw [String.intercalate_cons_cons] at hlist
        simp at hlist

/-- The messages of OpenAI say the system text and the turns. -/
theorem reading_openai {r : CompletionRequest} (h : Regular loads b64decode r) :
    OpenAI.reading loads b64decode (OpenAI.buildMessages r) =
      (conversation loads b64decode r).map fun turns => ((splitSystem r).1, turns) := by
  have hentries : ((splitSystem r).2.map openaiMessage).mapM (OpenAI.entry loads b64decode) =
      (splitSystem r).2.mapM (Message.entry loads b64decode) := by
    rw [mapM_map_option]
    exact mapM_congr_option fun m hm => entry_openaiMessage (h.carried m hm)
  unfold OpenAI.buildMessages openaiMessages conversation
  dsimp only
  rw [Option.map_map]
  cases hsystem : (splitSystem r).1 with
  | some s =>
    have hne := splitSystem_fst r s hsystem
    simp only [Option.filter_some, hne, ne_eq, not_false_eq_true, decide_true, if_true, Option.toList_some,
      Option.filter_none, Option.toList_none, List.append_nil, List.cons_ne_nil, if_false,
      String.intercalate_singleton, List.singleton_append]
    unfold OpenAI.reading
    rw [← hentries]
    rfl
  | none =>
    simp only [Option.filter_none, Option.toList_none, List.append_nil, if_true, List.nil_append]
    have hfirst : ∀ w ∈ (splitSystem r).2.map openaiMessage, w.role ≠ "system" := by
      intro w hw
      obtain ⟨m, hm, rfl⟩ := List.mem_map.mp hw
      rw [role_openaiMessage]
      simpa using (List.mem_filter.mp hm).2
    rw [← hentries]
    generalize (splitSystem r).2.map openaiMessage = messages at hfirst
    unfold OpenAI.reading
    split
    · exact absurd rfl (hfirst _ List.mem_cons_self)
    · rfl

/-! ## Entries -/

theorem Message.entry_tool (h : m.role = "tool") :
    m.entry loads b64decode = some (.result (m.toolCallId.getD "") m.content) := if_pos h

/-- A call of a message, as its entry has it. -/
def keyedCall (loads : String → Except String Json) (c : ToolCall) : String × FunctionCall :=
  (c.id, ⟨c.name, parseArguments loads c.arguments⟩)

theorem Message.entry_assistant (h : m.Carried loads b64decode) (hrole : m.role = "assistant") :
    m.entry loads b64decode =
      some (.said (.assistant m.content) ((m.toolCalls.getD []).map (keyedCall loads))) := by
  have hcalls : (m.toolCalls.getD []).mapM (callOf loads) = some ((m.toolCalls.getD []).map (keyedCall loads)) := by
    refine mapM_eq_map fun c hc => ?_
    obtain ⟨hne, members, hmembers⟩ := h.arguments hrole c hc
    unfold callOf keyedCall
    rw [argumentsOf_eq hmembers, parseArguments_eq hne hmembers]
    rfl
  unfold Message.entry
  rw [if_neg (by rw [hrole]; decide), if_pos hrole, hcalls]
  rfl

theorem Message.entry_user (hrole : m.role = "user") {pictures : List Picture}
    (hpictures : (m.images.getD []).mapM (Image.picture b64decode) = some pictures) :
    m.entry loads b64decode = some (.said (.user m.content pictures) []) := by
  unfold Message.entry
  rw [if_neg (by rw [hrole]; decide), if_neg (by rw [hrole]; decide), hpictures]
  rfl

/-- The images of a message that can be carried have pictures. -/
theorem Message.Carried.pictures (h : m.Carried loads b64decode) :
    ∃ pictures, (m.images.getD []).mapM (Image.picture b64decode) = some pictures := by
  cases himages : nonempty m.images with
  | false => exact ⟨[], by rw [nonempty_eq_false himages]; rfl⟩
  | true =>
    have hinline := (h.images himages).2
    generalize m.images.getD [] = l at hinline
    clear himages h
    induction l with
    | nil => exact ⟨[], rfl⟩
    | cons i l ih =>
      obtain ⟨pictures, hl⟩ := ih fun j hj => hinline j (List.mem_cons_of_mem _ hj)
      obtain ⟨mediaType, data, rfl, -, -, bytes, hbytes⟩ := hinline i List.mem_cons_self
      refine ⟨⟨mediaType, bytes⟩ :: pictures, ?_⟩
      rw [List.mapM_cons, hl]
      simp [Image.picture, pictureOf, hbytes]

/-- A message of each kind, with its entry. -/
theorem Message.Carried.cases (h : m.Carried loads b64decode) :
    (m.role = "tool" ∧ m.entry loads b64decode = some (.result (m.toolCallId.getD "") m.content)) ∨
    (m.role = "assistant" ∧ nonempty m.images = false ∧ m.entry loads b64decode =
      some (.said (.assistant m.content) ((m.toolCalls.getD []).map (keyedCall loads)))) ∨
    (m.role = "user" ∧ ∃ pictures, (m.images.getD []).mapM (Image.picture b64decode) = some pictures ∧
      m.entry loads b64decode = some (.said (.user m.content pictures) [])) := by
  rcases h.role with hrole | hrole | hrole
  · obtain ⟨pictures, hpictures⟩ := h.pictures
    exact .inr (.inr ⟨hrole, pictures, hpictures, Message.entry_user hrole hpictures⟩)
  · refine .inr (.inl ⟨hrole, ?_, Message.entry_assistant h hrole⟩)
    by_contra hnot
    have huser := (h.images (Bool.not_eq_false _ ▸ hnot)).1
    rw [hrole] at huser
    exact absurd huser (by decide)
  · exact .inl ⟨hrole, Message.entry_tool hrole⟩

/-! ## Messages read one by one -/

section Reading

variable {M : Type} {entries : M → Option (List WireEntry)} {messages : List M} {groups : List (List WireEntry)}

theorem mapM_concat {w : M} {g : List WireEntry} (h : messages.mapM entries = some groups) (hw : entries w = some g) :
    (messages ++ [w]).mapM entries = some (groups ++ [g]) := by
  rw [List.mapM_append, h]
  simp [hw]

theorem of_mapM_concat {α β : Type} {f : α → Option β} {l : List α} {a : α} {bs : List β}
    (h : (l ++ [a]).mapM f = some bs) : ∃ before b, bs = before ++ [b] ∧ l.mapM f = some before ∧ f a = some b := by
  rw [List.mapM_append] at h
  obtain ⟨before, hbefore, h⟩ := Option.bind_eq_some_iff.mp h
  obtain ⟨last, hlast, h⟩ := Option.bind_eq_some_iff.mp h
  obtain rfl := Option.some.inj h
  rw [List.mapM_cons] at hlast
  obtain ⟨g, hg, hlast⟩ := Option.bind_eq_some_iff.mp hlast
  obtain rfl := Option.some.inj hlast
  exact ⟨before, g, rfl, hbefore, hg⟩

theorem adds_said {w : M} {e : WireEntry} (h : messages.mapM entries = some groups) (hw : entries w = some [e])
    (he : e.isResult = false) : ∃ groups', (messages ++ [w]).mapM entries = some groups' ∧ Adds groups e groups' :=
  ⟨_, mapM_concat h hw, .fresh fun hresult => nomatch he.symm.trans hresult⟩

theorem last_not_result (h : messages.mapM entries = some groups) (hne : ∀ g ∈ groups, g ≠ [])
    (hlast : ∀ w ∈ messages.getLast?, ∀ g, entries w = some g → ∀ x ∈ g.getLast?, x.isResult = false) :
    ∀ x ∈ groups.flatten.getLast?, x.isResult = false := by
  rcases List.eq_nil_or_concat' messages with rfl | ⟨before, w, rfl⟩
  · obtain rfl := Option.some.inj h
    exact fun x hx => nomatch hx
  · obtain ⟨rest, g, rfl, -, hw⟩ := of_mapM_concat h
    intro x hx
    have hg : g ≠ [] := hne g (by simp)
    rw [List.flatten_append, List.flatten_singleton, List.getLast?_append, Option.or_of_isSome (by simpa using hg)] at hx
    exact hlast w (by simp) g hw x hx

end Reading

theorem Built.ne_nil {l : List WireEntry} {groups : List (List WireEntry)} (h : Built l groups) : ∀ g ∈ groups, g ≠ [] := by
  induction h with
  | nil => exact fun g hg => nomatch hg
  | add _ hadd ih =>
    cases hadd with
    | fresh _ =>
      intro g hg
      rcases List.mem_append.mp hg with hg | hg
      · exact ih g hg
      · obtain rfl := List.mem_singleton.mp hg
        exact List.cons_ne_nil _ _
    | join rest g hmessages _ _ =>
      subst hmessages
      intro g' hg'
      rcases List.mem_append.mp hg' with hg' | hg'
      · exact ih g' (List.mem_append_left _ hg')
      · obtain rfl := List.mem_singleton.mp hg'
        simp

/-! ## Anthropic -/

namespace Anthropic

variable {messages : List WireMessage}

theorem openResults_some {blocks : List Block} (h : openResults messages = some blocks) :
    ∃ before, messages = before ++ [⟨"user", .blocks blocks⟩] := by
  unfold openResults at h
  split at h
  · rename_i hlast
    obtain rfl := Option.some.inj h
    exact List.getLast?_eq_some_iff.mp hlast
  · cases h

/-- Where no results are open, the last message ends in none. -/
theorem openResults_none (h : openResults messages = none) :
    ∀ w ∈ messages.getLast?, ∀ g, entries b64decode w = some g → ∀ x ∈ g.getLast?, x.isResult = false := by
  intro w hw g hg x hx
  have hblocks : ∀ blocks, w ≠ ⟨"user", .blocks blocks⟩ := by
    rintro blocks rfl
    unfold openResults at h
    rw [Option.mem_def.mp hw] at h
    cases h
  unfold entries at hg
  split at hg
  · obtain rfl := Option.some.inj hg
    obtain rfl := Option.some.inj hx
    rfl
  · rename_i blocks hrole hcontent
    exact absurd (by cases w; simp_all) (hblocks blocks)
  · obtain rfl := Option.some.inj hg
    obtain rfl := Option.some.inj hx
    rfl
  · obtain rfl := Option.some.inj hg
    obtain rfl := Option.some.inj hx
    rfl
  · cases hg

theorem entries_blocks (blocks : List Block) : entries b64decode ⟨"user", .blocks blocks⟩ =
    (said b64decode blocks).map fun l => l ++ blocks.filterMap Block.result? := rfl

/-- One more result in a message says one more result. -/
theorem entries_append {blocks : List Block} {g : List WireEntry}
    (h : entries b64decode ⟨"user", .blocks blocks⟩ = some g) (id : Option String) (content : String) :
    entries b64decode ⟨"user", .blocks (blocks ++ [.toolResult id content])⟩ =
      some (g ++ [.result (id.getD "") content]) := by
  have hsaid : said b64decode (blocks ++ [.toolResult id content]) = said b64decode blocks := by
    have hall : (blocks ++ [Block.toolResult id content]).all (fun b => b.result?.isSome) =
        blocks.all fun b => b.result?.isSome := by
      rw [List.all_append]
      exact Bool.and_true _
    have hpictures : (blocks ++ [Block.toolResult id content]).filterMap (Block.picture? b64decode) =
        blocks.filterMap (Block.picture? b64decode) := by
      rw [List.filterMap_append]
      exact List.append_nil _
    have htexts : (blocks ++ [Block.toolResult id content]).filterMap Block.text? = blocks.filterMap Block.text? := by
      rw [List.filterMap_append]
      exact List.append_nil _
    unfold said
    rw [hall, hpictures, htexts]
  rw [entries_blocks] at h ⊢
  obtain ⟨l, hl, rfl⟩ := Option.map_eq_some_iff.mp h
  rw [hsaid, hl, List.filterMap_append, Option.map_some, ← List.append_assoc]
  rfl

theorem filterMap_picture {m : Message} (h : ∀ i ∈ m.images.getD [], i.Inline b64decode) (content : String) :
    ((m.images.getD []).map imageBlock ++ if content = "" then [] else [Block.text content]).filterMap
      (Block.picture? b64decode) = (m.images.getD []).map (Image.picture b64decode) := by
  have himages : ((m.images.getD []).map imageBlock).filterMap (Block.picture? b64decode) =
      (m.images.getD []).map (Image.picture b64decode) := by
    rw [List.filterMap_map]
    refine List.filterMap_eq_map_iff_forall_eq_some.mpr fun i hi => ?_
    obtain ⟨mediaType, data, rfl, -⟩ := h i hi
    rfl
  rw [List.filterMap_append, himages]
  by_cases hc : content = "" <;> simp [hc, Block.picture?]

theorem said_images {m : Message} (himages : nonempty m.images = true) (h : ∀ i ∈ m.images.getD [], i.Inline b64decode)
    {pictures : List Picture} (hpictures : (m.images.getD []).mapM (Image.picture b64decode) = some pictures) :
    entries b64decode ⟨"user", .blocks ((m.images.getD []).map imageBlock ++
      if m.content = "" then [] else [.text m.content])⟩ = some [.said (.user m.content pictures) []] := by
  have hnot : ¬((m.images.getD []).map imageBlock ++ if m.content = "" then [] else [Block.text m.content]).all
      (fun b => b.result?.isSome) = true := by
    cases hl : m.images.getD [] with
    | nil => simp [nonempty, hl] at himages
    | cons i l =>
      rw [hl] at h
      obtain ⟨mediaType, data, rfl, -⟩ := h i List.mem_cons_self
      simp [imageBlock, Block.result?]
  have hresults : ∀ b ∈ (m.images.getD []).map imageBlock ++ (if m.content = "" then [] else [Block.text m.content]),
      b.result? = none := by
    intro b hb
    rcases List.mem_append.mp hb with hb | hb
    · obtain ⟨i, -, rfl⟩ := List.mem_map.mp hb
      cases i <;> rfl
    · by_cases hc : m.content = ""
      · simp [hc] at hb
      · simp only [hc, if_false, List.mem_singleton] at hb
        rw [hb]
        rfl
  have htext : String.join (((m.images.getD []).map imageBlock ++
      if m.content = "" then [] else [Block.text m.content]).filterMap Block.text?) = m.content := by
    have hnone : ((m.images.getD []).map imageBlock).filterMap Block.text? = [] := by
      refine List.filterMap_eq_nil_iff.mpr fun b hb => ?_
      obtain ⟨i, -, rfl⟩ := List.mem_map.mp hb
      cases i <;> rfl
    rw [List.filterMap_append, hnone]
    by_cases hc : m.content = "" <;> simp [hc, Block.text?]
  rw [entries_blocks]
  unfold said
  rw [if_neg hnot, filterMap_picture h, htext, mapM_map_option, List.filterMap_eq_nil_iff.mpr hresults]
  simp only [id_eq]
  rw [hpictures]
  rfl

theorem said_calls (content : String) (calls : List ToolCall) :
    entries b64decode ⟨"assistant", .blocks ((if content = "" then [] else [.text content]) ++
      calls.map fun c => .toolUse c.id c.name (parseArguments loads c.arguments))⟩ =
      some [.said (.assistant content) (calls.map (keyedCall loads))] := by
  have htexts : (calls.map fun c => Block.toolUse c.id c.name (parseArguments loads c.arguments)).filterMap
      Block.text? = [] := by
    refine List.filterMap_eq_nil_iff.mpr fun b hb => ?_
    obtain ⟨c, -, rfl⟩ := List.mem_map.mp hb
    rfl
  have hcalls : (calls.map fun c => Block.toolUse c.id c.name (parseArguments loads c.arguments)).filterMap
      Block.call? = calls.map (keyedCall loads) := by
    rw [List.filterMap_map]
    exact List.filterMap_eq_map_iff_forall_eq_some.mpr fun c _ => rfl
  have hblocks : ∀ blocks : List Block, entries b64decode ⟨"assistant", .blocks blocks⟩ =
      some [.said (.assistant (String.join (blocks.filterMap Block.text?))) (blocks.filterMap Block.call?)] :=
    fun _ => rfl
  rw [hblocks, List.filterMap_append, List.filterMap_append, htexts, hcalls]
  by_cases hc : content = "" <;> simp [hc, Block.text?, Block.call?]

/-- One message more says one entry more. -/
theorem adds_addMessage {m : Message} (h : m.Carried loads b64decode)
    {groups : List (List WireEntry)} (hread : messages.mapM (entries b64decode) = some groups)
    (hne : ∀ g ∈ groups, g ≠ []) {e : WireEntry} (he : m.entry loads b64decode = some e) :
    ∃ groups', (addMessage loads messages m).mapM (entries b64decode) = some groups' ∧ Adds groups e groups' := by
  unfold addMessage
  rcases h.cases with ⟨hrole, hentry⟩ | ⟨hrole, himages, hentry⟩ | ⟨hrole, pictures, hpictures, hentry⟩
  · obtain rfl := Option.some.inj (hentry.symm.trans he)
    rw [if_pos hrole]
    dsimp only
    cases hopen : openResults messages with
    | none =>
      exact ⟨_, mapM_concat hread rfl, .fresh fun _ => last_not_result hread hne (openResults_none hopen)⟩
    | some blocks =>
      obtain ⟨before, rfl⟩ := openResults_some hopen
      obtain ⟨rest, g, rfl, hrest, hg⟩ := of_mapM_concat hread
      rw [List.dropLast_concat]
      exact ⟨_, mapM_concat hrest (entries_append hg m.toolCallId m.content),
        .join rest g rfl (hne g (by simp)) rfl⟩
  · obtain rfl := Option.some.inj (hentry.symm.trans he)
    rw [if_neg (by rw [hrole]; decide)]
    by_cases hcalls : nonempty m.toolCalls = true
    · rw [if_pos ⟨hrole, hcalls⟩]
      exact adds_said hread (said_calls m.content (m.toolCalls.getD [])) rfl
    · rw [if_neg fun hboth => hcalls hboth.2, if_neg (by simp [himages])]
      refine adds_said hread ?_ rfl
      rw [nonempty_eq_false (by simpa using hcalls), hrole]
      rfl
  · obtain rfl := Option.some.inj (hentry.symm.trans he)
    rw [if_neg (by rw [hrole]; decide), if_neg fun hboth => absurd (hrole.symm.trans hboth.1) (by decide), hrole]
    by_cases himages : nonempty m.images = true
    · rw [if_pos himages]
      exact adds_said hread (said_images himages (h.images himages).2 hpictures) rfl
    · rw [if_neg himages]
      refine adds_said hread ?_ rfl
      rw [nonempty_eq_false (by simpa using himages)] at hpictures
      obtain rfl := Option.some.inj hpictures
      rfl

/-- Messages added one by one are built from their entries. -/
theorem built_foldl {l : List Message} (hl : ∀ m ∈ l, m.Carried loads b64decode) {es : List WireEntry}
    (hes : l.mapM (Message.entry loads b64decode) = some es) :
    ∃ groups, (l.foldl (addMessage loads) []).mapM (entries b64decode) = some groups ∧ Built es groups := by
  induction l using List.reverseRecOn generalizing es with
  | nil =>
    obtain rfl := Option.some.inj hes
    exact ⟨[], rfl, .nil⟩
  | append_singleton l m ih =>
    obtain ⟨before, e, rfl, hbefore, he⟩ := of_mapM_concat hes
    obtain ⟨groups, hread, hbuilt⟩ := ih (fun m hm => hl m (List.mem_append_left _ hm)) hbefore
    obtain ⟨groups', hread', hadds⟩ := adds_addMessage (hl m (by simp)) hread (Built.ne_nil hbuilt) he
    rw [List.foldl_append]
    exact ⟨groups', hread', hbuilt.add hadds⟩

end Anthropic

/-! ## Gemini -/

namespace Gemini

/-- The function names known after an entry. -/
def learn (names : Dict String String) : WireEntry → Dict String String
  | .said _ calls => calls.foldl (fun names c => names.set c.1 c.2.name) names
  | .result _ _ => names

/-- An entry with the names of functions for ids. -/
def rekey (names : Dict String String) : WireEntry → WireEntry
  | .said speech calls => .said speech (calls.map fun c => (c.2.name, c.2))
  | .result id text => .result ((names.get? id).getD "tool") text

/-- Entries with the names of functions for ids. -/
def byName (names : Dict String String) : List WireEntry → List WireEntry
  | [] => []
  | e :: l => rekey names e :: byName (learn names e) l

theorem byName_concat (l : List WireEntry) (e : WireEntry) : ∀ names : Dict String String,
    byName names (l ++ [e]) = byName names l ++ [rekey (l.foldl learn names) e] := by
  induction l with
  | nil => exact fun _ => rfl
  | cons d l ih => exact fun names => congrArg (rekey names d :: ·) (ih (learn names d))

theorem forget_byName (l : List WireEntry) : ∀ names : Dict String String,
    (byName names l).map Entry.forget = l.map Entry.forget := by
  induction l with
  | nil => exact fun _ => rfl
  | cons e l ih =>
    intro names
    have hhead : (rekey names e).forget = e.forget := by
      cases e with
      | said speech calls => simp [rekey, Entry.forget]
      | result id text => rfl
    show (rekey names e).forget :: _ = e.forget :: _
    rw [hhead, ih]

/-- Calls with distinct ids, in every entry. -/
def DistinctCalls (l : List WireEntry) : Prop :=
  ∀ speech calls, Entry.said speech calls ∈ l → (calls.map Prod.fst).Nodup

/-- What is answered at once by id is answered at once by name: the pending ids have their names. -/
theorem answered_byName {l : List WireEntry} : ∀ {names : Dict String String} {pending : List (String × String)},
    Answered (pending.map Prod.fst) l → DistinctCalls l → (∀ p ∈ pending, names.get? p.1 = some p.2) →
      Answered (pending.map Prod.snd) (byName names l) := by
  induction l with
  | nil =>
    intro names pending h _ _
    cases pending with
    | nil => trivial
    | cons p ps => exact h.elim
  | cons e l ih =>
    intro names pending h hdistinct hnames
    have hrest : DistinctCalls l := fun speech calls hmem => hdistinct speech calls (List.mem_cons_of_mem _ hmem)
    cases pending with
    | nil =>
      cases e with
      | said speech calls =>
        have hnodup := hdistinct speech calls List.mem_cons_self
        have hstep : Answered ((calls.map fun c => (c.1, c.2.name)).map Prod.snd)
            (byName (learn names (.said speech calls)) l) := by
          refine ih ?_ hrest fun p hp => ?_
          · rw [List.map_map]
            exact h
          · have hfold : learn names (.said speech calls) =
                (calls.map fun c => (c.1, c.2.name)).foldl (fun d e => d.set e.1 e.2) names := by
              rw [List.foldl_map]
              rfl
            rw [hfold]
            refine Dict.get?_foldl_set_of_nodup ?_ hp names
            rw [List.map_map]
            exact hnodup
        show Answered ((calls.map fun c => (c.2.name, c.2)).map Prod.fst) _
        rw [List.map_map] at hstep ⊢
        exact hstep
      | result id text =>
        have hstep : Answered (([] : List (String × String)).map Prod.snd) (byName names l) :=
          ih h hrest fun _ hp => nomatch hp
        exact hstep
    | cons p ps =>
      cases e with
      | said speech calls => exact h.elim
      | result id text =>
        obtain ⟨rfl, h⟩ := h
        refine ⟨?_, ih h hrest fun q hq => hnames q (List.mem_cons_of_mem _ hq)⟩
        rw [hnames p List.mem_cons_self]
        rfl

/-- The last content, when it holds results, ends in one. -/
def EndsInResults (contents : List Content) : Prop :=
  ∀ c ∈ contents.getLast?, c.role = "user" → c.parts.filterMap Part.result? ≠ [] →
    ∃ name result, c.parts.getLast? = some (.functionResponse name result)

variable {contents : List Content} {parts : List Part}

theorem openResponses_some (h : openResponses contents = some parts) :
    ∃ before, contents = before ++ [⟨"user", parts⟩] := by
  unfold openResponses at h
  split at h
  · rename_i hlast
    split at h
    · obtain rfl := Option.some.inj h
      exact List.getLast?_eq_some_iff.mp hlast
    · cases h
  · cases h

theorem entries_user (parts : List Part) : entries ⟨"user", parts⟩ = some (said parts ++ parts.filterMap Part.result?) := rfl

/-- Where no responses are open, the last content ends in none. -/
theorem openResponses_none (h : openResponses contents = none) (hends : EndsInResults contents) :
    ∀ c ∈ contents.getLast?, ∀ g, entries c = some g → ∀ x ∈ g.getLast?, x.isResult = false := by
  intro c hc g hg x hx
  unfold entries at hg
  split_ifs at hg with huser hmodel
  · obtain rfl := Option.some.inj hg
    by_cases hresults : c.parts.filterMap Part.result? = []
    · rw [hresults, List.append_nil] at hx
      unfold said at hx
      split_ifs at hx
      · cases hx
      · obtain rfl := Option.some.inj hx
        rfl
    · obtain ⟨name, result, hlast⟩ := hends c hc huser hresults
      obtain ⟨role, parts⟩ := c
      obtain rfl : role = "user" := huser
      have hopen : openResponses contents = some parts := by
        simp [openResponses, Option.mem_def.mp hc, hlast]
      cases h.symm.trans hopen
  · obtain rfl := Option.some.inj hg
    obtain rfl := Option.some.inj hx
    rfl

/-- One more response in a content says one more result. -/
theorem entries_append {g : List WireEntry} (h : entries ⟨"user", parts⟩ = some g)
    (name result : String) :
    entries ⟨"user", parts ++ [.functionResponse name result]⟩ = some (g ++ [.result name result]) := by
  have hsaid : said (parts ++ [.functionResponse name result]) = said parts := by
    have hall : (parts ++ [Part.functionResponse name result]).all (fun p => p.result?.isSome) =
        parts.all fun p => p.result?.isSome := by
      rw [List.all_append]
      exact Bool.and_true _
    have hpictures : (parts ++ [Part.functionResponse name result]).filterMap Part.picture? =
        parts.filterMap Part.picture? := by
      rw [List.filterMap_append]
      exact List.append_nil _
    have htexts : (parts ++ [Part.functionResponse name result]).filterMap Part.text? = parts.filterMap Part.text? := by
      rw [List.filterMap_append]
      exact List.append_nil _
    unfold said
    rw [hall, hpictures, htexts]
  rw [entries_user] at h ⊢
  obtain rfl := Option.some.inj h
  rw [hsaid, List.filterMap_append, ← List.append_assoc]
  rfl

/-- Inline images are sent as their pictures. -/
theorem mapM_blob {images : List Image} (h : ∀ i ∈ images, i.Inline b64decode) : ∀ {pictures : List Picture},
    images.mapM (Image.picture b64decode) = some pictures →
      images.mapM (blob b64decode) = .ok (pictures.map fun p => .inlineData p.mediaType p.bytes) := by
  induction images with
  | nil =>
    intro pictures hpictures
    obtain rfl := Option.some.inj hpictures
    rfl
  | cons i images ih =>
    intro pictures hpictures
    rw [List.mapM_cons] at hpictures ⊢
    obtain ⟨p, hp, hpictures⟩ := Option.bind_eq_some_iff.mp hpictures
    obtain ⟨rest, hrest, hpictures⟩ := Option.bind_eq_some_iff.mp hpictures
    obtain rfl := Option.some.inj hpictures
    obtain ⟨mediaType, data, rfl, -, hdata, bytes, hbytes⟩ := h i List.mem_cons_self
    have hp' : p = ⟨mediaType, bytes⟩ := by
      unfold Image.picture pictureOf at hp
      dsimp only at hp
      rw [hbytes] at hp
      exact (Option.some.inj hp).symm
    have hblob : blob b64decode (.inline mediaType data) = .ok (.inlineData mediaType bytes) := by
      unfold blob
      dsimp only
      rw [if_neg hdata, hbytes]
    rw [hblob, ih (fun j hj => h j (List.mem_cons_of_mem _ hj)) hrest, hp']
    rfl

/-- The parts of a user's message. -/
def userParts (content : String) (pictures : List Picture) : List Part :=
  let images := pictures.map fun p => Part.inlineData p.mediaType p.bytes
  images ++ if content ≠ "" ∨ images = [] then [Part.text content] else []

theorem results_userParts (content : String) (pictures : List Picture) :
    (userParts content pictures).filterMap Part.result? = [] := by
  refine List.filterMap_eq_nil_iff.mpr fun p hp => ?_
  rcases List.mem_append.mp hp with hp | hp
  · obtain ⟨q, -, rfl⟩ := List.mem_map.mp hp
    rfl
  · split_ifs at hp
    · obtain rfl := List.mem_singleton.mp hp
      rfl
    · cases hp

theorem entries_userParts (content : String) (pictures : List Picture) :
    entries ⟨"user", userParts content pictures⟩ = some [.said (.user content pictures) []] := by
  have hnot : ¬(userParts content pictures).all (fun p => p.result?.isSome) = true := by
    unfold userParts
    cases pictures with
    | nil => simp [Part.result?]
    | cons p ps => simp [Part.result?]
  have hpictures : (userParts content pictures).filterMap Part.picture? = pictures := by
    have himages : (pictures.map fun p => Part.inlineData p.mediaType p.bytes).filterMap Part.picture? = pictures := by
      rw [List.filterMap_map]
      exact List.filterMap_some
    unfold userParts
    dsimp only
    rw [List.filterMap_append, himages]
    split_ifs <;> simp [Part.picture?]
  have htext : String.join ((userParts content pictures).filterMap Part.text?) = content := by
    have himages : (pictures.map fun p => Part.inlineData p.mediaType p.bytes).filterMap Part.text? = [] := by
      refine List.filterMap_eq_nil_iff.mpr fun b hb => ?_
      obtain ⟨p, -, rfl⟩ := List.mem_map.mp hb
      rfl
    unfold userParts
    dsimp only
    rw [List.filterMap_append, himages]
    split_ifs with hc
    · simp [Part.text?]
    · have hempty : content = "" := not_not.mp fun h => hc (.inl h)
      simp [hempty]
  rw [entries_user, results_userParts]
  unfold said
  rw [if_neg hnot, hpictures, htext]
  rfl

theorem entries_model (parts : List Part) : entries ⟨"model", parts⟩ =
    some [.said (.assistant (String.join (parts.filterMap Part.text?))) (parts.filterMap Part.call?)] := rfl

theorem entries_calls (content : String) (calls : List ToolCall) :
    entries ⟨"model", (if content = "" then [] else [.text content]) ++
      calls.map fun c => .functionCall c.name (parseArguments loads c.arguments)⟩ =
      some [.said (.assistant content) ((calls.map (keyedCall loads)).map fun c => (c.2.name, c.2))] := by
  have htexts : (calls.map fun c => Part.functionCall c.name (parseArguments loads c.arguments)).filterMap
      Part.text? = [] := by
    refine List.filterMap_eq_nil_iff.mpr fun b hb => ?_
    obtain ⟨c, -, rfl⟩ := List.mem_map.mp hb
    rfl
  have hcalls : (calls.map fun c => Part.functionCall c.name (parseArguments loads c.arguments)).filterMap
      Part.call? = (calls.map (keyedCall loads)).map fun c => (c.2.name, c.2) := by
    rw [List.filterMap_map, List.map_map]
    exact List.filterMap_eq_map_iff_forall_eq_some.mpr fun c _ => rfl
  rw [entries_model, List.filterMap_append, List.filterMap_append, htexts, hcalls]
  by_cases hc : content = "" <;> simp [hc, Part.text?, Part.call?]

theorem endsInResults_concat {c : Content}
    (h : c.role = "user" → c.parts.filterMap Part.result? ≠ [] →
      ∃ name result, c.parts.getLast? = some (.functionResponse name result)) : EndsInResults (contents ++ [c]) := by
  intro d hd
  rw [List.getLast?_concat, Option.mem_some_iff] at hd
  exact hd ▸ h

theorem endsInResults_model (contents : List Content) (parts : List Part) :
    EndsInResults (contents ++ [⟨"model", parts⟩]) := by
  have hrole : "model" ≠ "user" := by decide
  exact endsInResults_concat fun huser => absurd huser hrole

/-- What one message more does: the names learned, one entry more, and the role of the last content. -/
structure Added (b b' : Building) (groups : List (List WireEntry)) (m : Message) (e : WireEntry) : Prop where
  names : b'.names = learn b.names e
  read : ∃ groups', b'.contents.mapM entries = some groups' ∧ Adds groups (rekey b.names e) groups'
  ends : EndsInResults b'.contents
  last : m.role ≠ "assistant" → ∃ parts, b'.contents.getLast? = some ⟨"user", parts⟩

theorem added_addMessage {m : Message} (h : m.Carried loads b64decode) {b : Building}
    {groups : List (List WireEntry)} (hread : b.contents.mapM entries = some groups) (hends : EndsInResults b.contents)
    (hne : ∀ g ∈ groups, g ≠ []) {e : WireEntry} (he : m.entry loads b64decode = some e) :
    ∃ b', addMessage loads b64decode b m = .ok b' ∧ Added b b' groups m e := by
  unfold addMessage
  rcases h.cases with ⟨hrole, hentry⟩ | ⟨hrole, himages, hentry⟩ | ⟨hrole, pictures, hpictures, hentry⟩
  · obtain rfl := Option.some.inj (hentry.symm.trans he)
    rw [if_pos hrole]
    dsimp only
    cases hopen : openResponses b.contents with
    | none =>
      refine ⟨_, rfl, rfl, ⟨_, mapM_concat hread rfl, ?_⟩, endsInResults_concat fun _ _ => ⟨_, _, rfl⟩,
        fun _ => ⟨_, List.getLast?_concat⟩⟩
      exact .fresh fun _ => last_not_result hread hne (openResponses_none hopen hends)
    | some parts =>
      obtain ⟨before, hbefore⟩ := openResponses_some hopen
      rw [hbefore] at hread
      obtain ⟨rest, g, rfl, hrest, hg⟩ := of_mapM_concat hread
      refine ⟨_, rfl, rfl, ⟨_, ?_, .join rest g rfl (hne g (by simp)) rfl⟩,
        endsInResults_concat fun _ _ => ⟨_, _, List.getLast?_concat⟩, fun _ => ⟨_, List.getLast?_concat⟩⟩
      rw [hbefore, List.dropLast_concat]
      exact mapM_concat hrest (entries_append hg _ _)
  · obtain rfl := Option.some.inj (hentry.symm.trans he)
    rw [if_neg (by rw [hrole]; decide)]
    by_cases hcalls : nonempty m.toolCalls = true
    · rw [if_pos ⟨hrole, hcalls⟩]
      refine ⟨_, rfl, ?_, adds_said hread (entries_calls m.content (m.toolCalls.getD [])) rfl,
        endsInResults_model _ _, fun hnot => absurd hrole hnot⟩
      show _ = ((m.toolCalls.getD []).map (keyedCall loads)).foldl _ _
      rw [List.foldl_map]
      rfl
    · rw [if_neg fun hboth => hcalls hboth.2, nonempty_eq_false himages, hrole, if_pos rfl]
      refine ⟨_, rfl, ?_, adds_said hread ?_ rfl,
        endsInResults_model _ _, fun hnot => absurd hrole hnot⟩
      · rw [nonempty_eq_false (by simpa using hcalls)]
        rfl
      · rw [nonempty_eq_false (by simpa using hcalls), entries_model]
        simp [Part.text?]
        rfl
  · obtain rfl := Option.some.inj (hentry.symm.trans he)
    have himages : (m.images.getD []).mapM (blob b64decode) =
        .ok (pictures.map fun p => Part.inlineData p.mediaType p.bytes) := by
      by_cases hany : nonempty m.images = true
      · exact mapM_blob (h.images hany).2 hpictures
      · rw [nonempty_eq_false (by simpa using hany)] at hpictures ⊢
        obtain rfl := Option.some.inj hpictures
        rfl
    rw [if_neg (by rw [hrole]; decide), if_neg fun hboth => absurd (hrole.symm.trans hboth.1) (by decide),
      himages, if_neg (by rw [hrole]; decide)]
    exact ⟨_, rfl, rfl, adds_said hread (entries_userParts m.content pictures) rfl,
      endsInResults_concat fun _ hresults => absurd (results_userParts m.content pictures) hresults,
      fun _ => ⟨_, List.getLast?_concat⟩⟩

/-- Contents added one by one are built from the entries, with names for ids. -/
theorem built_foldlM {l : List Message} (hl : ∀ m ∈ l, m.Carried loads b64decode) {es : List WireEntry}
    (hes : l.mapM (Message.entry loads b64decode) = some es) :
    ∃ b groups, l.foldlM (addMessage loads b64decode) {} = .ok b ∧ b.names = es.foldl learn Dict.empty ∧
      b.contents.mapM entries = some groups ∧ Built (byName Dict.empty es) groups ∧ EndsInResults b.contents ∧
      ∀ m ∈ l.getLast?, m.role ≠ "assistant" → ∃ parts, b.contents.getLast? = some ⟨"user", parts⟩ := by
  induction l using List.reverseRecOn generalizing es with
  | nil =>
    obtain rfl := Option.some.inj hes
    exact ⟨{}, [], rfl, rfl, rfl, .nil, fun c hc => (nomatch hc), fun m hm => nomatch hm⟩
  | append_singleton l m ih =>
    obtain ⟨before, e, rfl, hbefore, he⟩ := of_mapM_concat hes
    obtain ⟨b, groups, hrun, hnames, hread, hbuilt, hends, -⟩ :=
      ih (fun m hm => hl m (List.mem_append_left _ hm)) hbefore
    obtain ⟨b', hadd, hadded⟩ := added_addMessage (hl m (by simp)) hread hends (Built.ne_nil hbuilt) he
    obtain ⟨groups', hread', hadds⟩ := hadded.read
    refine ⟨b', groups', ?_, ?_, hread', ?_, hadded.ends, fun m' hm' => ?_⟩
    · rw [List.foldlM_append, hrun]
      show List.foldlM (addMessage loads b64decode) b [m] = _
      rw [List.foldlM_cons, hadd]
      rfl
    · rw [hadded.names, hnames, List.foldl_append]
      rfl
    · rw [byName_concat, ← hnames]
      exact hbuilt.add hadds
    · rw [List.getLast?_concat, Option.mem_some_iff] at hm'
      exact hm' ▸ hadded.last

/-- The contents a chat sends are those that were built. -/
theorem contentsOf_buildMessages {r : CompletionRequest} (hvalid : validateConversation r.messages = .ok ())
    {b : Building} (hrun : (splitSystem r).2.foldlM (addMessage loads b64decode) {} = .ok b)
    (hlast : b.contents.getLast? = some ⟨"user", parts⟩) :
    ∃ built, buildMessages loads b64decode r = .ok built ∧ contentsOf built = b.contents := by
  obtain ⟨before, hbefore⟩ := List.getLast?_eq_some_iff.mp hlast
  unfold buildMessages
  simp only [hvalid, hrun, bind, Except.bind]
  rw [hlast, hbefore, List.dropLast_concat]
  split
  · rename_i heq
    obtain ⟨-, rfl⟩ := Content.mk.inj (Option.some.inj heq)
    exact ⟨_, rfl, rfl⟩
  · rename_i heq
    obtain rfl := Option.some.inj heq
    exact ⟨_, rfl, rfl⟩
  · rename_i heq
    cases heq

end Gemini

/-! ## The conversation -/

theorem exists_entries {l : List Message} (hl : ∀ m ∈ l, m.Carried loads b64decode) :
    ∃ es, l.mapM (Message.entry loads b64decode) = some es := by
  induction l with
  | nil => exact ⟨[], rfl⟩
  | cons m l ih =>
    obtain ⟨es, hes⟩ := ih fun m hm => hl m (List.mem_cons_of_mem _ hm)
    rw [List.mapM_cons, hes]
    rcases (hl m List.mem_cons_self).cases with ⟨-, he⟩ | ⟨-, -, he⟩ | ⟨-, pictures, -, he⟩ <;>
      exact ⟨_, by rw [he]; rfl⟩

/-- Calls that are answered at once, as entries. -/
theorem answered_of_paired {l : List Message} : ∀ {pending : List String} {es : List WireEntry},
    Paired pending l → (∀ m ∈ l, m.Carried loads b64decode) → l.mapM (Message.entry loads b64decode) = some es →
      Answered pending es ∧ Gemini.DistinctCalls es := by
  induction l with
  | nil =>
    intro pending es h _ hes
    obtain rfl := Option.some.inj hes
    cases pending with
    | nil => exact ⟨trivial, fun _ _ hmem => nomatch hmem⟩
    | cons id ids => exact h.elim
  | cons m l ih =>
    intro pending es h hl hes
    rw [List.mapM_cons] at hes
    obtain ⟨e, he, hes⟩ := Option.bind_eq_some_iff.mp hes
    obtain ⟨rest, hrest, hes⟩ := Option.bind_eq_some_iff.mp hes
    obtain rfl := Option.some.inj hes
    have hlater : ∀ m ∈ l, m.Carried loads b64decode := fun m hm => hl m (List.mem_cons_of_mem _ hm)
    have hdistinct : Gemini.DistinctCalls rest →
        (∀ speech calls, e = .said speech calls → (calls.map Prod.fst).Nodup) → Gemini.DistinctCalls (e :: rest) := by
      intro hafter hhead speech calls hmem
      rcases List.mem_cons.mp hmem with heq | hmem
      · exact hhead speech calls heq.symm
      · exact hafter speech calls hmem
    cases pending with
    | nil =>
      rcases (hl m List.mem_cons_self).cases with ⟨hrole, hm⟩ | ⟨hrole, -, hm⟩ | ⟨hrole, pictures, -, hm⟩
      · obtain rfl := Option.some.inj (hm.symm.trans he)
        unfold Paired at h
        rw [if_neg (by rw [hrole]; decide)] at h
        obtain ⟨hanswered, hafter⟩ := ih h hlater hrest
        exact ⟨hanswered, hdistinct hafter fun _ _ heq => nomatch heq⟩
      · obtain rfl := Option.some.inj (hm.symm.trans he)
        unfold Paired at h
        rw [if_pos hrole] at h
        obtain ⟨hanswered, hafter⟩ := ih h.2 hlater hrest
        have hids : ((m.toolCalls.getD []).map (keyedCall loads)).map Prod.fst =
            (m.toolCalls.getD []).map ToolCall.id := by
          rw [List.map_map]
          rfl
        refine ⟨?_, hdistinct hafter fun speech calls heq => ?_⟩
        · show Answered (((m.toolCalls.getD []).map (keyedCall loads)).map Prod.fst) rest
          rw [hids]
          exact hanswered
        · obtain ⟨-, rfl⟩ := Entry.said.inj heq
          rw [hids]
          exact h.1
      · obtain rfl := Option.some.inj (hm.symm.trans he)
        unfold Paired at h
        rw [if_neg (by rw [hrole]; decide)] at h
        obtain ⟨hanswered, hafter⟩ := ih h hlater hrest
        refine ⟨hanswered, hdistinct hafter fun speech calls heq => ?_⟩
        obtain ⟨-, rfl⟩ := Entry.said.inj heq
        exact List.nodup_nil
    | cons id ids =>
      obtain ⟨hrole, hid, h⟩ := h
      obtain rfl := Option.some.inj ((Message.entry_tool hrole).symm.trans he)
      obtain ⟨hanswered, hafter⟩ := ih h hlater hrest
      refine ⟨⟨?_, hanswered⟩, hdistinct hafter fun _ _ heq => nomatch heq⟩
      rw [hid]
      rfl

/-- **The adapters keep the conversation.** The messages of each format say the same turns, with
the system text in OpenAI's; and Anthropic's and Gemini's have the results of one turn in one message. -/
theorem adapters_keep_conversation {r : CompletionRequest} (h : Regular loads b64decode r) :
    ∃ turns, conversation loads b64decode r = some turns ∧
      OpenAI.reading loads b64decode (OpenAI.buildMessages r) = some ((splitSystem r).1, turns) ∧
      (∃ messages groups, Anthropic.buildMessages loads r = .ok messages ∧
        messages.mapM (Anthropic.entries b64decode) = some groups ∧ read groups.flatten = turns ∧ Grouped groups) ∧
      ∃ built groups, Gemini.buildMessages loads b64decode r = .ok built ∧
        (Gemini.contentsOf built).mapM Gemini.entries = some groups ∧ read groups.flatten = turns ∧ Grouped groups := by
  obtain ⟨es, hes⟩ := exists_entries h.carried
  obtain ⟨hanswered, hdistinct⟩ := answered_of_paired h.paired h.carried hes
  have hturns : conversation loads b64decode r = some (read es) := by
    unfold conversation
    rw [hes]
    rfl
  refine ⟨read es, hturns, by rw [reading_openai h, hturns]; rfl, ?_, ?_⟩
  · obtain ⟨groups, hread, hbuilt⟩ := Anthropic.built_foldl h.carried hes
    refine ⟨_, groups, ?_, hread, congrArg read hbuilt.flatten, grouped_of_built hbuilt hanswered⟩
    unfold Anthropic.buildMessages
    rw [h.valid]
    rfl
  · obtain ⟨b, groups, hrun, -, hread, hbuilt, -, hlast⟩ := Gemini.built_foldlM h.carried hes
    obtain ⟨m, hm, hrole⟩ := (validateConversation_ok_iff.mp h.valid).last
    obtain ⟨parts, hparts⟩ := hlast m hm (by rcases hrole with hr | hr <;> rw [hr] <;> decide)
    obtain ⟨built, hbuild, hcontents⟩ := Gemini.contentsOf_buildMessages h.valid hrun hparts
    have hnamed : Answered [] (Gemini.byName Dict.empty es) := by
      have hstep : Answered (([] : List (String × String)).map Prod.snd) (Gemini.byName Dict.empty es) :=
        Gemini.answered_byName hanswered hdistinct fun _ hp => nomatch hp
      exact hstep
    refine ⟨built, groups, hbuild, hcontents ▸ hread, ?_, grouped_of_built hbuilt hnamed⟩
    rw [hbuilt.flatten, read_forget hnamed, read_forget hanswered, Gemini.forget_byName]

/-! ## A conversation -/

/-- `json.loads`, of the empty object. -/
def loadsEmpty (raw : String) : Except String Json := if raw = "{}" then .ok (.obj []) else .error "Expecting value"

/-- `base64.b64decode`, of one picture. -/
def decodeDot (data : String) : Option (List UInt8) := if data = "AA==" then some [0] else none

/-- A question with a picture, a call, its result and a further question. -/
def lookAgain : CompletionRequest where
  messages := [
    { role := "system", content := "Be brief." },
    { role := "user", content := "What is this?", images := some [.inline "image/png" "AA=="] },
    { role := "assistant", content := "", toolCalls := some [⟨"call_0", "look", "{}"⟩] },
    { role := "tool", content := "A dot.", toolCallId := some "call_0" },
    { role := "user", content := "And now?" }]

theorem regular_lookAgain : Regular loadsEmpty decodeDot lookAgain where
  valid := by decide +kernel
  paired := by
    have hturns : (splitSystem lookAgain).2 = lookAgain.messages.tail := by decide +kernel
    rw [hturns]
    simp [lookAgain, Paired]
  arguments := by
    have hturns : (splitSystem lookAgain).2 = lookAgain.messages.tail := by decide +kernel
    rw [hturns]
    simp [lookAgain, loadsEmpty]
  images := by
    have hturns : (splitSystem lookAgain).2 = lookAgain.messages.tail := by decide +kernel
    rw [hturns]
    simp [lookAgain, nonempty, Image.Inline, decodeDot]

/-- All three formats tell the conversation. -/
theorem adapters_keep_lookAgain : ∃ turns, conversation loadsEmpty decodeDot lookAgain = some turns ∧
    OpenAI.reading loadsEmpty decodeDot (OpenAI.buildMessages lookAgain) = some (some "Be brief.", turns) ∧
    (∃ messages groups, Anthropic.buildMessages loadsEmpty lookAgain = .ok messages ∧
      messages.mapM (Anthropic.entries decodeDot) = some groups ∧ read groups.flatten = turns ∧ Grouped groups) ∧
    ∃ built groups, Gemini.buildMessages loadsEmpty decodeDot lookAgain = .ok built ∧
      (Gemini.contentsOf built).mapM Gemini.entries = some groups ∧ read groups.flatten = turns ∧ Grouped groups := by
  obtain ⟨turns, hturns, hopenai, hothers⟩ := adapters_keep_conversation regular_lookAgain
  have hsystem : (splitSystem lookAgain).1 = some "Be brief." := by decide +kernel
  exact ⟨turns, hturns, hsystem ▸ hopenai, hothers⟩

end Caips.Providers
