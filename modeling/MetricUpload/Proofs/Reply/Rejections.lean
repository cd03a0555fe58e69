import MetricUpload.Proofs.Decimal.Whole
import MetricUpload.Proofs.Reply.Document
import MetricUpload.Reply

namespace MetricUpload

namespace Reply

open Json (Tree)

/-- The three places of a reply that name rejected events. -/
inductive Index where
  | tooNew
  | tooOld
  | expired
  deriving DecidableEq

namespace Index

def key : Index → String
  | .tooNew => tooNewKey
  | .tooOld => tooOldKey
  | .expired => expiredKey

def get : Index → Rejected → Option Nat
  | .tooNew, r => r.tooNewStart
  | .tooOld, r => r.tooOldEnd
  | .expired, r => r.expiredEnd

def set : Index → Option Nat → Rejected → Rejected
  | .tooNew, k, r => { r with tooNewStart := k }
  | .tooOld, k, r => { r with tooOldEnd := k }
  | .expired, k, r => { r with expiredEnd := k }

variable (i j : Index) (k : Option Nat) (r : Rejected)

theorem key_injective {i j : Index} (h : i.key = j.key) : i = j := by
  revert h
  cases i <;> cases j <;> decide

theorem get_set_self : i.get (i.set k r) = k := by
  cases i <;> rfl

theorem get_set_of_ne (h : i ≠ j) : i.get (j.set k r) = i.get r := by
  cases i <;> cases j <;> first | rfl | exact absurd rfl h

theorem get_none_ne (n : Nat) : ¬i.get Rejected.none = some n := by
  cases i <;> exact nofun

end Index

/-- Null, or a numeral of a whole number of 32 bits with its sign. -/
def IsIndex (t : Tree) : Prop :=
  t = .null ∨ ∃ (n : Json.NumeralText) (k : Int), t = .number n ∧ n.decimal.Denotes k ∧
    -indexLimit ≤ k ∧ k < indexLimit

/-- Null, or a string that means a text. -/
def IsText (t : Tree) : Prop :=
  t = .null ∨ ∃ (pieces : List Json.Piece) (text : List Char), t = .string pieces ∧
    Json.meaning? pieces = some text

structure IsInfo (members : List (String × Tree)) : Prop where
  distinct : (members.map Prod.fst).Nodup
  indices : ∀ (i : Index) (t : Tree), (i.key, t) ∈ members → IsIndex t
  others : ∀ key t, (key, t) ∈ members → (∀ i : Index, key ≠ i.key) → t.depth ≤ skippedDepth

structure IsEntity (members : List (String × Tree)) : Prop where
  errorType : ∀ t, (errorTypeKey, t) ∈ members → IsText t
  others : ∀ key t, (key, t) ∈ members → key ≠ errorTypeKey → t.depth ≤ skippedDepth

/-- Null, or an object whose members are in order. -/
def IsNullOr (inOrder : List (String × Tree) → Prop) (t : Tree) : Prop :=
  t = .null ∨ ∃ members, t.members? = some members ∧ inOrder members

/-- The members of a reply: the indices in their place, and well-formed values under other keys. -/
structure IsReply (members : List (String × Tree)) : Prop where
  distinct : (members.map Prod.fst).Nodup
  info : ∀ t, (infoKey, t) ∈ members → IsNullOr IsInfo t
  token : ∀ t, (tokenKey, t) ∈ members → IsText t
  entity : ∀ t, (entityKey, t) ∈ members → IsNullOr IsEntity t
  others : ∀ key t, (key, t) ∈ members → key ≠ infoKey → key ≠ tokenKey → key ≠ entityKey →
    t.depth ≤ skippedDepth

/-- The field of an index is the whole number `k`. -/
def Reports (members : List (String × Tree)) (i : Index) (k : Int) : Prop :=
  ∃ info inner n, (infoKey, info) ∈ members ∧ info.members? = some inner ∧
    (i.key, .number n) ∈ inner ∧ n.decimal.Denotes k

section

variable {σ β : Type} {f : σ → List Char × Value → Option σ} {raws : List (List Char × Value)}
  {members : List (String × Tree)}

theorem Named.exists_of_mem (h : Named raws members) {member : List Char × Value}
    (hmem : member ∈ raws) : ∃ key t, Json.unquoted? member.1 = some key ∧
      member.2 = t.inReply ∧ (key, t) ∈ members := by
  induction h with
  | nil => cases hmem
  | @cons raw key t raws members hkey more ih =>
    rcases List.mem_cons.mp hmem with rfl | hmem
    · exact ⟨key, t, hkey, rfl, List.mem_cons_self⟩
    · obtain ⟨other, u, hother, hvalue, hfound⟩ := ih hmem
      exact ⟨other, u, hother, hvalue, List.mem_cons_of_mem _ hfound⟩

theorem Named.exists_foldlM (h : Named raws members)
    (hstep : ∀ {raw key t}, Json.unquoted? raw = some key → (key, t) ∈ members →
      ∀ s, ∃ next, f s (raw, t.inReply) = some next) (s : σ) :
    ∃ last, raws.foldlM f s = some last := by
  induction h generalizing s with
  | nil => exact ⟨s, rfl⟩
  | @cons raw key t raws members hkey more ih =>
    obtain ⟨next, hnext⟩ := hstep hkey List.mem_cons_self s
    obtain ⟨last, hlast⟩ := ih (fun hkey hmem => hstep hkey (List.mem_cons_of_mem _ hmem)) next
    exact ⟨last, by rw [List.foldlM_cons, hnext]; exact hlast⟩

/-- A part of what members add up to that belongs to one key: its member settles it, and the others
leave it as it is. -/
structure Slot (f : σ → List Char × Value → Option σ) (key : String) (get : σ → β)
    (read : Value → Option β) : Prop where
  writes : ∀ {s next raw v}, Json.unquoted? raw = some key → f s (raw, v) = some next →
    read v = some (get next)
  keeps : ∀ {s next raw v other}, Json.unquoted? raw = some other → other ≠ key →
    f s (raw, v) = some next → get next = get s

/-- What a run over members leaves in a slot: the value under its key, or what was there before. -/
theorem Slot.foldlM {key : String} {get : σ → β} {read : Value → Option β}
    (slot : Slot f key get read) (h : Named raws members) (distinct : (members.map Prod.fst).Nodup)
    {s last : σ} (hf : raws.foldlM f s = some last) :
    (∀ t, (key, t) ∈ members → read t.inReply = some (get last)) ∧
      ((∀ t, (key, t) ∉ members) → get last = get s) := by
  induction h generalizing s with
  | nil =>
    cases hf
    exact ⟨nofun, fun _ => rfl⟩
  | @cons raw other t raws members hkey more ih =>
    rw [List.foldlM_cons] at hf
    obtain ⟨next, hnext, hlast⟩ := Option.bind_eq_some_iff.mp hf
    obtain ⟨hnew, hrest⟩ := List.nodup_cons.mp distinct
    obtain ⟨hwritten, hkept⟩ := ih hrest hlast
    by_cases hsame : other = key
    · subst hsame
      have habsent : ∀ u, (other, u) ∉ members := fun u hmem => hnew (List.mem_map.mpr ⟨_, hmem, rfl⟩)
      refine ⟨fun u hu => ?_, fun hnone => absurd List.mem_cons_self (hnone t)⟩
      rcases List.mem_cons.mp hu with heq | hmem
      · cases heq
        rw [hkept habsent]
        exact slot.writes hkey hnext
      · exact absurd hmem (habsent u)
    · refine ⟨fun u hu => ?_, fun hnone => ?_⟩
      · rcases List.mem_cons.mp hu with heq | hmem
        · cases heq
          exact absurd rfl hsame
        · exact hwritten u hmem
      · rw [hkept fun u hmem => hnone u (List.mem_cons_of_mem _ hmem)]
        exact slot.keeps hkey hsame hnext

/-- What holds of a slot behind a run is what its member says, where nothing held before. -/
theorem Slot.foldlM_iff {key : String} {get : σ → β} {read : Value → Option β}
    (slot : Slot f key get read) (h : Named raws members) (distinct : (members.map Prod.fst).Nodup)
    {s last : σ} (hf : raws.foldlM f s = some last) {Q : β → Prop} {R : Tree → Prop}
    (hstart : ¬Q (get s))
    (hfield : ∀ t, (key, t) ∈ members → ∃ found, read t.inReply = some found ∧ (Q found ↔ R t)) :
    Q (get last) ↔ ∃ t, (key, t) ∈ members ∧ R t := by
  obtain ⟨hwritten, hkept⟩ := slot.foldlM h distinct hf
  have hsaid : ∀ t, (key, t) ∈ members → (Q (get last) ↔ R t) := by
    intro t ht
    obtain ⟨found, hfound, hiff⟩ := hfield t ht
    rw [Option.some.inj ((hwritten t ht).symm.trans hfound), hiff]
  constructor
  · intro hlast
    by_cases hmember : ∃ t, (key, t) ∈ members
    · obtain ⟨t, ht⟩ := hmember
      exact ⟨t, ht, (hsaid t ht).mp hlast⟩
    · rw [hkept fun t ht => hmember ⟨t, ht⟩] at hlast
      exact absurd hlast hstart
  · rintro ⟨t, ht, hr⟩
    exact (hsaid t ht).mpr hr

end

section

variable {raw : List Char} {v : Value} {key : String} {r : Rejected}

theorem addIndex?_index {i : Index} (h : Json.unquoted? raw = some i.key) :
    addIndex? r (raw, v) = (index? v).map fun k => i.set k r := by
  have htooOld : tooOldKey ≠ tooNewKey := by decide
  have hexpired : expiredKey ≠ tooNewKey ∧ expiredKey ≠ tooOldKey := by decide
  cases i <;> simp only [Index.key] at h <;>
    simp only [addIndex?, h, Option.bind_eq_bind, Option.bind_some, htooOld, hexpired, ↓reduceIte] <;>
    rfl

theorem addIndex?_other (h : Json.unquoted? raw = some key) (hne : ∀ i : Index, key ≠ i.key) :
    addIndex? r (raw, v) = if v.isSkippable then some r else none := by
  have htooNew : key ≠ tooNewKey := hne .tooNew
  have htooOld : key ≠ tooOldKey := hne .tooOld
  have hexpired : key ≠ expiredKey := hne .expired
  simp only [addIndex?, h, Option.bind_eq_bind, Option.bind_some, htooNew, htooOld, hexpired,
    ↓reduceIte]

theorem slot_index (i : Index) : Slot addIndex? i.key i.get index? where
  writes := by
    intro s next raw v hkey hnext
    rw [addIndex?_index hkey] at hnext
    obtain ⟨k, hk, rfl⟩ := Option.map_eq_some_iff.mp hnext
    rw [hk, i.get_set_self]
  keeps := by
    intro s next raw v other hkey hother hnext
    by_cases hindex : ∃ j : Index, other = j.key
    · obtain ⟨j, rfl⟩ := hindex
      rw [addIndex?_index hkey] at hnext
      obtain ⟨k, _, rfl⟩ := Option.map_eq_some_iff.mp hnext
      exact i.get_set_of_ne j k s fun hsame => hother (by rw [hsame])
    · rw [addIndex?_other hkey fun j hj => hindex ⟨j, hj⟩] at hnext
      split at hnext
      next => rw [Option.some.inj hnext]
      next => cases hnext

theorem addMember?_info (h : Json.unquoted? raw = some infoKey) :
    addMember? r (raw, v) = info? v := by
  simp only [addMember?, h, Option.bind_eq_bind, Option.bind_some, ↓reduceIte]

theorem addMember?_other (h : Json.unquoted? raw = some key) (hne : key ≠ infoKey) :
    addMember? r (raw, v) = if isOther key v then some r else none := by
  simp only [addMember?, h, Option.bind_eq_bind, Option.bind_some, hne, ↓reduceIte]

theorem slot_info : Slot addMember? infoKey id info? where
  writes := by
    intro s next raw v hkey hnext
    rwa [addMember?_info hkey] at hnext
  keeps := by
    intro s next raw v other hkey hother hnext
    rw [addMember?_other hkey hother] at hnext
    split at hnext
    next => rw [Option.some.inj hnext]
    next => cases hnext

end

/-- A negative index counts as none. -/
theorem exists_index {t : Tree} (h : IsIndex t) : ∃ found, index? t.inReply = some found ∧
    ∀ k : Nat, found = some k ↔ ∃ n, t = .number n ∧ n.decimal.Denotes k := by
  rcases h with rfl | ⟨n, m, rfl, hdenotes, hlow, hhigh⟩
  · refine ⟨none, rfl, fun k => iff_of_false nofun ?_⟩
    rintro ⟨_, hnone, _⟩
    cases hnone
  · have hexact : n.decimal.toInt? = some m := by
      apply Decimal.toInt?_of_denotes hdenotes
      simp only [indexLimit, Binary64.limit] at *
      omega
    have hrange : ¬(m < -indexLimit ∨ indexLimit ≤ m) := by omega
    have hspelled : ∀ k : Nat, (∃ n', Tree.number n = .number n' ∧ n'.decimal.Denotes k) ↔
        (k : Int) = m := by
      intro k
      constructor
      · rintro ⟨_, hn, hk⟩
        cases hn
        exact hk.unique hdenotes
      · intro hk
        exact ⟨n, rfl, hk ▸ hdenotes⟩
    by_cases hnegative : m < 0
    · refine ⟨none, ?_, fun k => ?_⟩
      · simp only [Tree.inReply, index?, hexact, Option.bind_eq_bind, Option.bind_some, hrange,
          hnegative, ↓reduceIte]
      · rw [hspelled]
        exact iff_of_false nofun (by omega)
    · refine ⟨some m.toNat, ?_, fun k => ?_⟩
      · simp only [Tree.inReply, index?, hexact, Option.bind_eq_bind, Option.bind_some, hrange,
          hnegative, ↓reduceIte]
      · rw [hspelled, Option.some.injEq]
        omega

theorem isSkippable_inReply {t : Tree} (h : t.depth ≤ skippedDepth) :
    t.inReply.isSkippable = true := by
  rw [Value.isSkippable, depth_inReply, decide_eq_true h]

theorem exists_addIndex {members : List (String × Tree)} (h : IsInfo members) {raw : List Char}
    {key : String} {t : Tree} (hkey : Json.unquoted? raw = some key) (hmem : (key, t) ∈ members)
    (r : Rejected) : ∃ next, addIndex? r (raw, t.inReply) = some next := by
  by_cases hindex : ∃ i : Index, key = i.key
  · obtain ⟨i, rfl⟩ := hindex
    obtain ⟨k, hk, _⟩ := exists_index (h.indices i t hmem)
    exact ⟨i.set k r, by rw [addIndex?_index hkey, hk, Option.map_some]⟩
  · have hother : ∀ i : Index, key ≠ i.key := fun i hi => hindex ⟨i, hi⟩
    refine ⟨r, ?_⟩
    rw [addIndex?_other hkey hother, isSkippable_inReply (h.others key t hmem hother), if_pos rfl]

theorem exists_info {t : Tree} (h : IsNullOr IsInfo t) : ∃ rejected,
    info? t.inReply = some rejected ∧ ∀ (i : Index) (k : Nat), i.get rejected = some k ↔
      ∃ inner n, t.members? = some inner ∧ (i.key, .number n) ∈ inner ∧ n.decimal.Denotes k := by
  rcases h with rfl | ⟨members, hmembers, hinfo⟩
  · refine ⟨Rejected.none, rfl, fun i k => iff_of_false (i.get_none_ne k) ?_⟩
    rintro ⟨_, _, hnone, _⟩
    cases hnone
  · obtain ⟨raws, hraws, named⟩ := exists_named hmembers
    obtain ⟨rejected, hrejected⟩ := named.exists_foldlM (exists_addIndex hinfo) Rejected.none
    refine ⟨rejected, by rw [hraws]; exact hrejected, fun i k => ?_⟩
    have hfield : ∀ u, (i.key, u) ∈ members → ∃ found, index? u.inReply = some found ∧
        (found = some k ↔ ∃ n, u = .number n ∧ n.decimal.Denotes k) := by
      intro u hu
      obtain ⟨found, hfound, hspelled⟩ := exists_index (hinfo.indices i u hu)
      exact ⟨found, hfound, hspelled k⟩
    rw [(slot_index i).foldlM_iff named hinfo.distinct hrejected (i.get_none_ne k) hfield]
    constructor
    · rintro ⟨u, hu, n, rfl, hn⟩
      exact ⟨members, n, hmembers, hu, hn⟩
    · rintro ⟨inner, n, hinner, hu, hn⟩
      rw [hmembers] at hinner
      cases hinner
      exact ⟨_, hu, n, rfl, hn⟩

theorem isText_inReply {t : Tree} (h : IsText t) : t.inReply.isText = true := by
  rcases h with rfl | ⟨pieces, text, rfl, hmeaning⟩
  · rfl
  · simp only [Tree.inReply, Value.isText, Json.unquoted?_pieces hmeaning, Option.isSome_some]

theorem isEntity_inReply {t : Tree} (h : IsNullOr IsEntity t) : t.inReply.isEntity = true := by
  rcases h with rfl | ⟨members, hmembers, hentity⟩
  · rfl
  · obtain ⟨raws, hraws, named⟩ := exists_named hmembers
    rw [hraws, Value.isEntity, List.all_eq_true]
    intro member hmember
    obtain ⟨key, u, hkey, hvalue, hfound⟩ := named.exists_of_mem hmember
    simp only [Value.isEntityMember, hkey, hvalue]
    split
    next htype =>
      subst htype
      exact isText_inReply (hentity.errorType u hfound)
    next hother => exact isSkippable_inReply (hentity.others key u hfound hother)

theorem isOther_inReply {members : List (String × Tree)} (h : IsReply members) {key : String}
    {t : Tree} (hmem : (key, t) ∈ members) (hinfo : key ≠ infoKey) :
    isOther key t.inReply = true := by
  unfold isOther
  split
  next htoken =>
    subst htoken
    exact isText_inReply (h.token t hmem)
  next htoken =>
    split
    next hentity =>
      subst hentity
      exact isEntity_inReply (h.entity t hmem)
    next hentity => exact isSkippable_inReply (h.others key t hmem hinfo htoken hentity)

theorem exists_addMember {members : List (String × Tree)} (h : IsReply members) {raw : List Char}
    {key : String} {t : Tree} (hkey : Json.unquoted? raw = some key) (hmem : (key, t) ∈ members)
    (r : Rejected) : ∃ next, addMember? r (raw, t.inReply) = some next := by
  by_cases hinfo : key = infoKey
  · subst hinfo
    obtain ⟨rejected, hrejected, _⟩ := exists_info (h.info t hmem)
    exact ⟨rejected, by rw [addMember?_info hkey, hrejected]⟩
  · refine ⟨r, ?_⟩
    rw [addMember?_other hkey hinfo, isOther_inReply h hmem hinfo, if_pos rfl]

/-- A reply in order is read, and the indices found are those that its fields are. -/
theorem exists_rejected {d : Json.Document} {members : List (String × Tree)}
    (hmembers : d.tree.members? = some members) (h : IsReply members) :
    ∃ rejected, rejected? d.text = some rejected ∧
      ∀ (i : Index) (k : Nat), i.get rejected = some k ↔ Reports members i k := by
  obtain ⟨raws, hraws, named⟩ := exists_named hmembers
  obtain ⟨rejected, hrejected⟩ := named.exists_foldlM (exists_addMember h) Rejected.none
  have hread : rejected? d.text = some rejected := by
    simp only [rejected?, text_ne_empty, ofChars?_document, hraws, ↓reduceIte]
    exact hrejected
  refine ⟨rejected, hread, fun i k => ?_⟩
  have hfield : ∀ t, (infoKey, t) ∈ members → ∃ found, info? t.inReply = some found ∧
      (i.get found = some k ↔
        ∃ inner n, t.members? = some inner ∧ (i.key, .number n) ∈ inner ∧ n.decimal.Denotes k) := by
    intro t ht
    obtain ⟨found, hfound, hindices⟩ := exists_info (h.info t ht)
    exact ⟨found, hfound, hindices i k⟩
  have hiff := slot_info.foldlM_iff named h.distinct hrejected (i.get_none_ne k) hfield
  refine Iff.trans hiff ?_
  constructor
  · rintro ⟨t, ht, inner, n, hinner, hn, hdenotes⟩
    exact ⟨t, inner, n, ht, hinner, hn, hdenotes⟩
  · rintro ⟨t, inner, n, ht, hinner, hn, hdenotes⟩
    exact ⟨t, ht, inner, n, hinner, hn, hdenotes⟩

end Reply

end MetricUpload
