import MetricUpload.Proofs.Reply.Rejections
import MetricUpload.Proofs.Service.Answer
import MetricUpload.Proofs.Upload.LoneRecord

namespace MetricUpload

/-- One object and nothing else but blanks. -/
def Reply.IsObjectText (body : String) : Prop :=
  ∃ (before : Json.Blanks) (members : List (List Char × Reply.Value)) (text : List Char)
    (after : Json.Blanks), body.toList = before.chars ++ (text ++ after.chars) ∧
      Reply.Written (.object members) text

theorem Reply.isObjectText_of_rejected? {body : String} {rejected : Rejected}
    (h : Reply.rejected? body = some rejected) (hbody : body ≠ "") : Reply.IsObjectText body := by
  simp only [Reply.rejected?, hbody, ↓reduceIte] at h
  split at h
  next members hread =>
    obtain ⟨before, text, after, hchars, hwritten⟩ := Reply.ofChars?_eq_some_iff.mp hread
    exact ⟨before, members, text, after, hchars, hwritten⟩
  next => cases h

namespace Rejected

theorem isEmpty_iff {r : Rejected} :
    r.isEmpty = true ↔ ∀ (i : Reply.Index) (k : Nat), i.get r ≠ some k := by
  obtain ⟨tooNew, tooOld, expired⟩ := r
  simp only [isEmpty, Bool.and_eq_true, Option.isNone_iff_eq_none]
  constructor
  · rintro ⟨⟨rfl, rfl⟩, rfl⟩ i k
    cases i <;> exact nofun
  · intro h
    exact ⟨⟨Option.eq_none_iff_forall_ne_some.mpr (h .tooNew),
      Option.eq_none_iff_forall_ne_some.mpr (h .tooOld)⟩,
      Option.eq_none_iff_forall_ne_some.mpr (h .expired)⟩

end Rejected

namespace Service

/-- A delivery is one request that carries all of it, whatever comes back. Where the service replies
with a status of success and an empty body or an object in order, the summary counts what was sent and
takes over the indices of the reply; where it replies with another status or another text, that is an
error. -/
theorem exchange (target : Target) (events : List Event) (status : Int) (body account : String) :
    (∃ request, ((reply status body account).deliver target events).requests = [request] ∧
      request.logGroup = target.logGroup ∧ request.logStream = target.logStream ∧
      request.entries.map LogEntry.message = events.map Event.message ∧
      request.entries.map LogEntry.timestamp = events.map Event.timestamp) ∧
    (¬(200 ≤ status ∧ status < 300) ∨ ¬(body = "" ∨ Reply.IsObjectText body) →
      ((reply status body account).deliver target events).result = .error (.refused account)) ∧
    (200 ≤ status ∧ status < 300 →
      (body = "" → ((reply status body account).deliver target events).result =
        .ok ⟨events.length, Rejected.none⟩) ∧
      ∀ (d : Json.Document) (members : List (String × Json.Tree)), d.text = body →
        d.tree.members? = some members → Reply.IsReply members →
          ∃ rejected, ((reply status body account).deliver target events).result =
              .ok ⟨events.length, rejected⟩ ∧
            (∀ (i : Reply.Index) (k : Nat),
              i.get rejected = some k ↔ Reply.Reports members i k) ∧
            (rejected.isEmpty = true ↔
              ∀ (i : Reply.Index) (k : Nat), ¬Reply.Reports members i k)) := by
  refine ⟨⟨.carrying target events, ?_, rfl, rfl, ?_, ?_⟩, ?_, fun hstatus => ⟨?_, ?_⟩⟩
  · rw [deliver_eq, receive]
  · exact List.map_map
  · exact List.map_map
  · rintro (hstatus | hbody)
    · exact result_of_refusal target events (rejected?_of_status hstatus)
    · rw [not_or] at hbody
      cases hread : (reply status body account).rejected? with
      | none => exact result_of_refusal target events hread
      | some rejected =>
        obtain ⟨_, _, found, hfound⟩ := exists_rejected?_iff.mp ⟨rejected, hread⟩
        exact absurd (Reply.isObjectText_of_rejected? hfound hbody.1) hbody.2
  · rintro rfl
    exact result_of_rejected? target events (rejected?_of_success hstatus)
  · rintro d members rfl hmembers hreply
    obtain ⟨rejected, hread, hiff⟩ := Reply.exists_rejected hmembers hreply
    refine ⟨rejected, result_of_rejected? target events ?_, hiff, ?_⟩
    · rw [rejected?_of_success hstatus, hread]
    · rw [Rejected.isEmpty_iff]
      exact forall_congr' fun i => forall_congr' fun k => not_congr (hiff i k)

def two : Json.NumeralText :=
  ⟨false, ⟨'2', [], List.forall_mem_singleton.mpr rfl⟩, fun _ => rfl, none, none⟩

def info : Json.Tree :=
  .object (.last (Json.literalName "tooOldLogEventEndIndex") .none (.number two) .none)

/-- The first two events are too old. -/
def tooOld : Json.Document :=
  ⟨.none, .object
    (.more (Json.literalName "rejectedLogEventsInfo") .none info .none
      (.last (Json.literalName "x") .none .null .none)), .none⟩

theorem members_tooOld :
    tooOld.tree.members? = some [(Reply.infoKey, info), ("x", .null)] := rfl

theorem members_info : info.members? = some [(Reply.Index.tooOld.key, .number two)] := rfl

theorem isInfo_info : Reply.IsInfo [(Reply.Index.tooOld.key, .number two)] where
  distinct := by decide
  indices := by
    intro i t h
    rw [(Prod.mk.inj (List.mem_singleton.mp h)).2]
    exact .inr ⟨two, 2, rfl, rfl, by decide, by decide⟩
  others := by
    intro key t h hother
    cases List.mem_singleton.mp h
    exact absurd rfl (hother .tooOld)

theorem isReply_tooOld : Reply.IsReply [(Reply.infoKey, info), ("x", .null)] := by
  have hmem : ∀ {key t}, (key, t) ∈ [(Reply.infoKey, info), ("x", .null)] →
      key = Reply.infoKey ∧ t = info ∨ key = "x" ∧ t = .null := by
    intro key t h
    simpa using h
  refine ⟨by decide, ?_, ?_, ?_, ?_⟩
  · intro t h
    rcases hmem h with ⟨_, rfl⟩ | ⟨_, rfl⟩
    · exact .inr ⟨_, members_info, isInfo_info⟩
    · exact .inl rfl
  · intro t h
    rcases hmem h with ⟨hkey, _⟩ | ⟨_, rfl⟩
    · exact absurd hkey (by decide)
    · exact .inl rfl
  · intro t h
    rcases hmem h with ⟨hkey, _⟩ | ⟨_, rfl⟩
    · exact absurd hkey (by decide)
    · exact .inl rfl
  · intro key t h hinfo _ _
    rcases hmem h with ⟨hkey, _⟩ | ⟨_, rfl⟩
    · exact absurd hkey hinfo
    · exact Nat.zero_le _

theorem reports_tooOld_iff {i : Reply.Index} {k : Nat} :
    Reply.Reports [(Reply.infoKey, info), ("x", .null)] i k ↔ i = .tooOld ∧ k = 2 := by
  constructor
  · rintro ⟨t, inner, n, ht, hinner, hn, hk⟩
    have hinfo : t = info := by
      rcases List.mem_cons.mp ht with heq | hrest
      · exact (Prod.mk.inj heq).2
      · exact absurd (Prod.mk.inj (List.mem_singleton.mp hrest)).1 (by decide)
    rw [hinfo, members_info] at hinner
    cases hinner
    obtain ⟨hkey, hnumber⟩ := Prod.mk.inj (List.mem_singleton.mp hn)
    cases hnumber
    have htwo : (k : Int) = 2 := hk.unique rfl
    exact ⟨Reply.Index.key_injective hkey, by omega⟩
  · rintro ⟨rfl, rfl⟩
    exact ⟨info, _, two, List.mem_cons_self, members_info, List.mem_singleton_self _, rfl⟩

/-- Three events, one of them without a text and one from before the epoch. -/
def three : List Event := [⟨"a", 2⟩, ⟨"b", -1⟩, ⟨"", 0⟩]

theorem exchange_tooOld :
    tooOld.text =
        "\x7b\"rejectedLogEventsInfo\":\x7b\"tooOldLogEventEndIndex\":2\x7d,\"x\":null\x7d" ∧
      (∃ request, ((reply 200 tooOld.text).deliver ⟨"g", "s"⟩ three).requests = [request] ∧
        request.logGroup = "g" ∧ request.logStream = "s" ∧
        request.entries.map LogEntry.message = ["a", "b", ""] ∧
        request.entries.map LogEntry.timestamp = [2, -1, 0]) ∧
      ((reply 200 tooOld.text).deliver ⟨"g", "s"⟩ three).result =
        .ok ⟨3, ⟨none, some 2, none⟩⟩ ∧
      ((reply 200 "").deliver ⟨"g", "s"⟩ three).result = .ok ⟨3, Rejected.none⟩ ∧
      ((reply 300 "" "Moved").deliver ⟨"g", "s"⟩ three).result = .error (.refused "Moved") := by
  obtain ⟨hrequest, _, hreads⟩ := exchange ⟨"g", "s"⟩ three 200 tooOld.text ""
  obtain ⟨r, hresult, hindex, _⟩ :=
    (hreads (by decide)).2 tooOld _ rfl members_tooOld isReply_tooOld
  have hrejected : r = ⟨none, some 2, none⟩ := by
    have hfound : ∀ (i : Reply.Index) (k : Nat), i.get r = some k ↔ i = .tooOld ∧ k = 2 :=
      fun i k => (hindex i k).trans reports_tooOld_iff
    have hnone : ∀ i : Reply.Index, i ≠ .tooOld → i.get r = none := fun i hi =>
      Option.eq_none_iff_forall_ne_some.mpr fun k hk => hi ((hfound i k).mp hk).1
    have htooOld : r.tooOldEnd = some 2 := (hfound .tooOld 2).mpr ⟨rfl, rfl⟩
    have htooNew : r.tooNewStart = none := hnone .tooNew (by decide)
    have hexpired : r.expiredEnd = none := hnone .expired (by decide)
    show Rejected.mk r.tooNewStart r.tooOldEnd r.expiredEnd = _
    rw [htooOld, htooNew, hexpired]
  rw [hrejected] at hresult
  exact ⟨by decide, hrequest, hresult, ((exchange _ _ 200 "" "").2.2 (by decide)).1 rfl,
    (exchange _ _ 300 "" "Moved").2.1 (.inl (by decide))⟩

/-- A member that is passed over is read only to a certain depth. -/
theorem rejected?_nested {n : Nat} (h : Reply.skippedDepth ≤ n) :
    Reply.rejected? (Json.nested (n + 1)).text = none := by
  have hdepth : (Json.nestedTree n).inReply.isSkippable = false := by
    rw [Reply.Value.isSkippable, Reply.depth_inReply, Json.nestedTree_depth]
    exact decide_eq_false (by omega)
  have hkey : Json.unquoted? ['a'] = some "a" := rfl
  have hother : "a" ≠ Reply.infoKey ∧ "a" ≠ Reply.tokenKey ∧ "a" ≠ Reply.entityKey := by decide
  have htree : (Json.nested (n + 1)).tree.inReply =
      .object [(['a'], (Json.nestedTree n).inReply)] := rfl
  simp only [Reply.rejected?, Reply.text_ne_empty, Reply.ofChars?_document, htree, ↓reduceIte,
    List.foldlM_cons, Reply.addMember?_other hkey hother.1, Reply.isOther, hother.2, hdepth,
    Bool.false_eq_true]
  rfl

/-- Statuses beside 200 are taken as success, and spellings that JSON has not are read over. Known
members of a wrong kind, lone surrogates where they are read, and values nested too deep are not. -/
theorem exchange_limits :
    ((reply 202 "").deliver ⟨"g", "s"⟩ []).result = .ok ⟨0, Rejected.none⟩ ∧
      (∀ body ∈ ["\x7b\"x\":01\x7d", "\x7b\"x\":1.\x7d", "\x7b\"x\":\"\\q\"\x7d"],
        (∀ d : Json.Document, d.text ≠ body) ∧
          ((reply 200 body).deliver ⟨"g", "s"⟩ []).result = .ok ⟨0, Rejected.none⟩) ∧
      (∀ body ∈ ["\x7b\"nextSequenceToken\":5\x7d", "\x7b\"rejectedEntityInfo\":true\x7d",
        "\x7b\"\\ud800\":0\x7d", (Json.nested 513).text],
        ((reply 200 body "unread").deliver ⟨"g", "s"⟩ []).result = .error (.refused "unread")) := by
  have accepted : ∀ {body cause}, Json.conclude Json.start body.toList = .error cause →
      ¬cause.IsLimit → Reply.rejected? body = some Rejected.none →
        (∀ d : Json.Document, d.text ≠ body) ∧
          ((reply 200 body).deliver ⟨"g", "s"⟩ []).result = .ok ⟨0, Rejected.none⟩ := by
    intro body cause refused spelling read
    refine ⟨Json.Document.text_ne_of_conclude refused spelling, result_of_rejected? _ _ ?_⟩
    rw [rejected?_of_success (by decide), read]
  have hnumeral : ¬Json.Cause.invalidNumber.IsLimit := by simp [Json.Cause.IsLimit]
  have hescape : ¬Json.Cause.invalidEscape.IsLimit := by simp [Json.Cause.IsLimit]
  refine ⟨result_of_rejected? _ _ rfl, ?_, ?_⟩
  · refine List.forall_mem_cons.mpr ⟨?_, List.forall_mem_cons.mpr ⟨?_,
      List.forall_mem_singleton.mpr ?_⟩⟩
    · exact accepted rfl hnumeral (by decide +kernel)
    · exact accepted rfl hnumeral (by decide +kernel)
    · exact accepted rfl hescape (by decide +kernel)
  · have hunread : ∀ body ∈ ["\x7b\"nextSequenceToken\":5\x7d",
        "\x7b\"rejectedEntityInfo\":true\x7d", "\x7b\"\\ud800\":0\x7d",
        (Json.nested 513).text], Reply.rejected? body = none := by
      refine List.forall_mem_cons.mpr ⟨?_, List.forall_mem_cons.mpr ⟨?_,
        List.forall_mem_cons.mpr ⟨?_, List.forall_mem_singleton.mpr ?_⟩⟩⟩
      · decide +kernel
      · decide +kernel
      · decide +kernel
      · exact rejected?_nested (Nat.le_refl 512)
    intro body hbody
    refine result_of_refusal _ _ ?_
    rw [rejected?_of_success (by decide), hunread body hbody]

end Service

end MetricUpload
