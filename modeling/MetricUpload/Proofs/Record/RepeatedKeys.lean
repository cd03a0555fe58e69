import MetricUpload.Event
import MetricUpload.Proofs.Json.CompactTree
import MetricUpload.Proofs.Json.Meaning
import MetricUpload.Proofs.Json.NumeralRange
import MetricUpload.Proofs.Record.Frame
import MetricUpload.Proofs.Upload.LoneRecord

namespace MetricUpload

namespace Json

/-- The value that stands last under a key, as it is written. -/
def Members.last? (key : String) : Members → Option Tree
  | .last name _ t _ => if meaning? name.pieces = some key.toList then some t else none
  | .more name _ t _ rest =>
    (rest.last? key).or (if meaning? name.pieces = some key.toList then some t else none)

def Tree.last? (key : String) : Tree → Option Tree
  | .object members => members.last? key
  | _ => none

/-- A tree and a value are both missing, or the value is what the tree means. -/
inductive MeansIf : Option Tree → Option Json → Prop
  | missing : MeansIf none none
  | found {t : Tree} {v : Json} (h : t.Means v) : MeansIf (some t) (some v)

theorem MeansIf.eq_none {v : Option Json} (h : MeansIf none v) : v = none := by
  cases h
  rfl

theorem MeansIf.exists_of_some {t : Tree} {v : Option Json} (h : MeansIf (some t) v) :
    ∃ w, v = some w ∧ t.Means w := by
  cases h with
  | found h => exact ⟨_, rfl, h⟩

theorem MeansIf.or {first second : Option Tree} {v w : Option Json} (h : MeansIf first v)
    (h' : MeansIf second w) : MeansIf (first.or second) (v.or w) := by
  cases h with
  | missing => exact h'
  | found h => exact .found h

theorem meansIf_named {name : Name} {key other : String} {t : Tree} {v : Json}
    (hk : meaning? name.pieces = some key.toList) (h : t.Means v) :
    MeansIf (if meaning? name.pieces = some other.toList then some t else none)
      ([(key, v)].lookup other) := by
  have hsame : meaning? name.pieces = some other.toList ↔ other = key := by
    rw [hk, Option.some.injEq, String.toList_inj, eq_comm]
  by_cases ho : other = key
  · rw [if_pos (hsame.mpr ho), List.lookup_cons, ho, beq_self_eq_true]
    exact .found h
  · have hne : (other == key) = false := by simpa using ho
    rw [if_neg (mt hsame.mp ho), List.lookup_cons, hne]
    exact .missing

theorem meansIf_membersLast (key : String) {members : Members} {named : List (String × Json)}
    (h : members.Mean named) : MeansIf (members.last? key) (named.reverse.lookup key) := by
  cases h with
  | last hk h => exact meansIf_named hk h
  | more hk h hs =>
    rw [List.reverse_cons, List.lookup_append]
    exact (meansIf_membersLast key hs).or (meansIf_named hk h)

theorem meansIf_last {t : Tree} {named : List (String × Json)} (h : t.Lists named) (key : String) :
    MeansIf (t.last? key) (named.reverse.lookup key) := by
  cases h with
  | empty inner => exact .missing
  | members h => exact meansIf_membersLast key h

end Json

namespace Record

/-- The record that an object text stands for, which lists these members. Only what stands last under
the key of the metadata counts as metadata, and a time in it is replaced where it stands first. Nothing
is repeated in the message. -/
structure Unrepeated (t : Json.Tree) (members : List (String × Json)) (r : Record) : Prop where
  resolved : Fields.Resolves members r
  distinct : (Json.object r).DistinctKeys
  plain : t.last? "_aws" = none → ∀ now : Int64, r.backdate now = .ok r
  refused : ∀ last v, t.last? "_aws" = some last → last.Means v → v.kind ≠ .object →
    ∀ now : Int64, r.backdate now = .error (.metadata v.kind)
  dated : ∀ last inner, t.last? "_aws" = some last → last.Lists inner → ∀ now : Int64, ∃ metadata dated,
    r.backdate now = .ok dated ∧
      Fields.Resolves (inner ++ [("Timestamp", .number (.int (now.toInt - 1000)))]) metadata ∧
      Fields.Resolves (members ++ [("_aws", .object metadata)]) dated
  sent : ∀ (now : Int64) (dated : Record) (timestamp : Int64), r.backdate now = .ok dated →
    ∃ d : Json.Document, d.text = (Event.ofRecord dated timestamp).message ∧
      d.tree.Shows (.object dated) ∧ d.tree.DistinctNames

end Record

namespace Event

/-- The message of a record without repeated keys repeats none. -/
theorem exists_document_of_message {r : Record} (distinct : (Json.object r).DistinctKeys)
    (timestamp : Int64) : ∃ d : Json.Document, d.text = (ofRecord r timestamp).message ∧
      d.tree.Shows (.object r) ∧ d.tree.DistinctNames := by
  obtain ⟨d, htext, _, hshows⟩ := Json.exists_document_shows (.object r)
  exact ⟨d, htext, hshows, Json.distinctNames_of_shows hshows distinct⟩

end Event

namespace Record

theorem unrepeated_of_lists {t : Json.Tree} {members : List (String × Json)} {r : Record}
    (h : t.Lists members) (resolved : Fields.Resolves members r)
    (distinct : (Json.object r).DistinctKeys) : Unrepeated t members r := by
  have hlast : Json.MeansIf (t.last? metadataKey) (r.lookup metadataKey) := by
    rw [resolved.value]
    exact Json.meansIf_last h metadataKey
  have hfound : ∀ last, t.last? metadataKey = some last →
      ∃ v, r.lookup metadataKey = some v ∧ last.Means v := by
    intro last hl
    rw [hl] at hlast
    exact hlast.exists_of_some
  refine ⟨resolved, distinct, ?_, ?_, ?_, ?_⟩
  · intro hnone now
    have habsent : t.last? metadataKey = none := hnone
    rw [habsent] at hlast
    exact backdate_of_absent (Fields.lookup_eq_none_iff.mp hlast.eq_none) now
  · intro last v hl hv hkind now
    obtain ⟨w, hlookup, hw⟩ := hfound last hl
    obtain rfl := hw.unique hv
    exact backdate_of_undatable ⟨w, hlookup, rfl, hkind⟩ now
  · intro last inner hl hinner now
    obtain ⟨w, hlookup, hw⟩ := hfound last hl
    have hmetadata := Fields.putAll_resolves inner
    obtain rfl := hw.unique (.object hinner hmetadata)
    exact ⟨_, _, backdate_of_object hlookup now, hmetadata.put timestampKey (timestamp now),
      resolved.put metadataKey _⟩
  · intro now dated timestamp hdated
    exact Event.exists_document_of_message (backdate_distinctKeys distinct hdated) timestamp

end Record

namespace RecordSet

/-- Beyond the limits of the reader no object text is read. -/
theorem ofText_fault_of_beyond {d : Json.Document} {written : Json.Members}
    (object : d.tree = .object written) (beyond : ¬written.Within Json.NumeralText.Convertible ∨ 127 < d.tree.depth) :
    ∃ fault, ofText d.text = .error (.badText fault) := by
  have hlimit : Json.nestingLimit = 127 := rfl
  cases hread : Json.read d.text with
  | error fault => exact ⟨fault, ofText_of_fault hread⟩
  | ok v =>
    obtain ⟨hmeans, hdepth⟩ := Json.Document.read_eq_ok_iff_means.mp hread
    have hwithin := hmeans.within
    rw [object] at hwithin
    rcases beyond with hnone | hdeep
    · exact absurd hwithin hnone
    · omega

/-- Within the limits of the reader an object text is read, with the repetitions in it resolved. -/
theorem exists_unrepeated {d : Json.Document} {written : Json.Members}
    (object : d.tree = .object written) (hwithin : written.Within Json.NumeralText.Convertible)
    (hdepth : d.tree.depth ≤ 127) : ∃ members r, written.Mean members ∧
      ofText d.text = .ok [r] ∧ Record.Unrepeated d.tree members r := by
  obtain ⟨members, hmembers⟩ := Json.exists_membersMean hwithin
  have hlists : d.tree.Lists members := by
    rw [object]
    exact .members hmembers
  have resolved := Fields.putAll_resolves members
  have hlimit : Json.nestingLimit = 127 := rfl
  have hread : Json.read d.text = .ok (.object (Fields.putAll [] members)) :=
    Json.Document.read_eq_ok_iff_means.mpr ⟨.object hlists resolved, by omega⟩
  refine ⟨members, _, hmembers, ofText_eq_ok_iff.mpr ⟨_, hread, rfl⟩, ?_⟩
  exact Record.unrepeated_of_lists hlists resolved (Json.read_fits hread).distinct

/-- Repeated keys resolve the same way at every level: each stands where it stood first, with its last
value. An object text is refused only beyond the limits of the reader. The limit of numerals lies about
`2 ^ 1024`, within four times the distance between the greatest doubles. -/
theorem ofText_repeated {d : Json.Document} {written : Json.Members}
    (object : d.tree = .object written) :
    (written.Within Json.NumeralText.Convertible → d.tree.depth ≤ 127 → ∃ members r,
      written.Mean members ∧ ofText d.text = .ok [r] ∧ Record.Unrepeated d.tree members r) ∧
    (¬written.Within Json.NumeralText.Convertible ∨ 127 < d.tree.depth →
      ∃ fault, ofText d.text = .error (.badText fault)) ∧
    (written.Within (fun n => n.power ≤ 2147483647 ∧ n.magnitude < 2 ^ 1024 - 2 ^ 973) →
      written.Within Json.NumeralText.Convertible) ∧
    (written.Within Json.NumeralText.Convertible →
      written.Within fun n => n.magnitude < 2 ^ 1024 + 2 ^ 973) := by
  refine ⟨exists_unrepeated object, ofText_fault_of_beyond object, ?_, ?_⟩
  · exact Json.Members.Within.mono fun _ ⟨hpower, hbelow⟩ =>
      Json.NumeralText.convertible_of_lt hpower hbelow
  · exact Json.Members.Within.mono fun _ => Json.NumeralText.lt_of_convertible

end RecordSet

namespace Json

def digit (n : Fin 10) : Tree :=
  .number ⟨false, ⟨Nat.digitChar n, [], by simp [Nat.isDigit_digitChar]⟩, fun _ => rfl, none, none⟩

/-- Metadata that stands first as a number, then under an escaped name as an object with two times,
around an object that repeats a key in two spellings. -/
def repeatedMembers : Members :=
  .more (literalName "_aws") .none (digit 7) .none <|
  .more (literalName "m") .none
    (.object <| .more (literalName "u") .none (digit 1) .none <|
      .last ⟨.none, [.unit ⟨0, false⟩ ⟨0, false⟩ ⟨7, false⟩ ⟨5, false⟩], .none⟩ .none (digit 2) .none)
    .none <|
  .last ⟨.none, .unit ⟨0, false⟩ ⟨0, false⟩ ⟨5, false⟩ ⟨15, false⟩ :: literalPieces "aws", .none⟩ .none
    (.object <| .more (literalName "Timestamp") .none (digit 1) .none <|
      .more (literalName "x") .none (digit 2) .none <|
      .last (literalName "Timestamp") .none (digit 3) .none)
    .none

def repeated : Document := ⟨.none, .object repeatedMembers, .none⟩

end Json

namespace RecordSet

/-- The record of that text, with this time in its metadata. -/
def unrepeated (time : Int) : Record :=
  [("_aws", .object [("Timestamp", .number (.int time)), ("x", .number (.int 2))]),
    ("m", .object [("u", .number (.int 2))])]

theorem ofText_repeated_spelled :
    Json.repeated.text = "\x7b\"_aws\":7,\"m\":\x7b\"u\":1,\"\\u0075\":2\x7d," ++
        "\"\\u005faws\":\x7b\"Timestamp\":1,\"x\":2,\"Timestamp\":3\x7d\x7d" ∧
      ofText Json.repeated.text = .ok [unrepeated 3] ∧
      (unrepeated 3).backdate 5000 = .ok (unrepeated 4000) ∧
      ∃ d : Json.Document, d.text = (Event.ofRecord (unrepeated 4000) 9).message ∧
        d.tree.DistinctNames := by
  have hwithin : Json.repeatedMembers.Within Json.NumeralText.Convertible := by
    refine ⟨⟨_, rfl⟩, ⟨_, rfl⟩, ⟨_, rfl⟩, ?_, ⟨_, rfl⟩, ?_⟩
    · exact ⟨⟨_, rfl⟩, ⟨_, rfl⟩, ⟨_, rfl⟩, ⟨_, rfl⟩⟩
    · exact ⟨⟨_, rfl⟩, ⟨_, rfl⟩, ⟨_, rfl⟩, ⟨_, rfl⟩, ⟨_, rfl⟩, ⟨_, rfl⟩⟩
  obtain ⟨members, r, hmean, hread, hunrepeated⟩ :=
    (ofText_repeated (d := Json.repeated) rfl).1 hwithin (by decide)
  have hmembers : Json.repeatedMembers.values? = some
      [("_aws", .number (.int 7)), ("m", .object [("u", .number (.int 2))]),
        ("_aws", .object [("Timestamp", .number (.int 3)), ("x", .number (.int 2))])] := rfl
  obtain rfl := Option.some.inj ((Json.memberValues_of_mean hmean).symm.trans hmembers)
  obtain rfl : unrepeated 3 = r := Fields.resolves_iff.mp hunrepeated.resolved
  have hdated : (unrepeated 3).backdate 5000 = .ok (unrepeated 4000) := rfl
  obtain ⟨d, htext, _, hnames⟩ := hunrepeated.sent 5000 (unrepeated 4000) 9 hdated
  exact ⟨by decide +kernel, hread, hdated, d, htext, hnames⟩

end RecordSet

namespace Json

/-- An object with one member. -/
def sole (t : Tree) : Document := ⟨.none, .object (.last (literalName "a") .none t .none), .none⟩

/-- The numeral `1e999`. -/
def overflow : NumeralText :=
  ⟨false, ⟨'1', [], by simp⟩, fun _ => rfl, none,
    some ⟨false, none, ⟨'9', ['9', '9'], by simp⟩⟩⟩

/-- The numeral `17976931348623157081e289`, below the greatest double. -/
def belowGreatest : NumeralText :=
  ⟨false, ⟨'1', "7976931348623157081".toList, by simp⟩, nofun, none,
    some ⟨false, none, ⟨'2', ['8', '9'], by simp⟩⟩⟩

theorem belowGreatest_lt : belowGreatest.magnitude < 2 ^ 1024 - 2 ^ 971 := by
  have hbelow : 17976931348623157081 * 10 ^ 289 + 2 ^ 971 < 2 ^ 1024 := by decide +kernel
  have hmagnitude : belowGreatest.magnitude = (17976931348623157081 * 10 ^ 289 : Nat) := by
    have hdigits : belowGreatest.digits = 17976931348623157081 := by decide +kernel
    have hpower : belowGreatest.power = 289 := by decide +kernel
    have hfraction : belowGreatest.fractionDigits = [] := rfl
    rw [NumeralText.magnitude, hdigits, hpower, hfraction]
    norm_num
  rw [hmagnitude, lt_sub_iff_add_lt]
  exact_mod_cast hbelow

/-- The first half of a surrogate pair. -/
def loneSurrogate : Piece := .unit ⟨13, false⟩ ⟨8, false⟩ ⟨0, false⟩ ⟨0, false⟩

end Json

namespace RecordSet

/-- Valid object texts without any repetition that are refused: one container too many, a number far
beyond the doubles, one that is still below the greatest double, and a surrogate on its own. -/
theorem ofText_limits :
    (∃ fault, ofText (Json.nested 127).text = .error (.badText fault)) ∧
      (Json.sole (.number Json.overflow)).text = "\x7b\"a\":1e999\x7d" ∧
      (∃ fault, ofText (Json.sole (.number Json.overflow)).text = .error (.badText fault)) ∧
      (Json.sole (.number Json.belowGreatest)).text =
        "\x7b\"a\":17976931348623157081e289\x7d" ∧
      Json.belowGreatest.magnitude < 2 ^ 1024 - 2 ^ 971 ∧
      (∃ fault, ofText (Json.sole (.number Json.belowGreatest)).text = .error (.badText fault)) ∧
      (Json.sole (.string [Json.loneSurrogate])).text = "\x7b\"a\":\"\\ud800\"\x7d" ∧
      ∃ fault, ofText (Json.sole (.string [Json.loneSurrogate])).text = .error (.badText fault) := by
  have hdepth : (Json.nested 127).tree.depth = 128 := Json.nestedTree_depth 127
  have hoverflow : Json.overflow.number? = none := rfl
  have hbelow : Json.belowGreatest.number? = none := by decide +kernel
  have hlone : Json.meaning? [Json.loneSurrogate] = none := rfl
  refine ⟨ofText_fault_of_beyond rfl (.inr (by omega)), by decide +kernel, ?_, by decide +kernel,
    Json.belowGreatest_lt, ?_, by decide +kernel, ?_⟩
  · refine ofText_fault_of_beyond rfl (.inl ?_)
    rintro ⟨_, n, hn⟩
    cases hoverflow.symm.trans hn
  · refine ofText_fault_of_beyond rfl (.inl ?_)
    rintro ⟨_, n, hn⟩
    cases hbelow.symm.trans hn
  · refine ofText_fault_of_beyond rfl (.inl ?_)
    rintro ⟨_, text, htext⟩
    cases hlone.symm.trans htext

end RecordSet

end MetricUpload
