import MetricUpload.Proofs.Binary64.Reread
import MetricUpload.Proofs.Json.Alike
import MetricUpload.Proofs.Json.CompactTree
import MetricUpload.Proofs.Json.Meaning

namespace MetricUpload

namespace Number

/-- The second number is the one that is read for the text of the first. -/
def Rereads (n m : Number) : Prop := Json.read (Json.number n).text = .ok (.number m)

theorem Rereads.unique {n m m' : Number} (h : n.Rereads m) (h' : n.Rereads m') : m = m' :=
  Json.number.inj (Except.ok.inj (h.symm.trans h'))

theorem rereads_iff {n m : Number} {t : Json.NumeralText} (ht : t.chars = n.chars) :
    n.Rereads m ↔ t.number? = some m := by
  have hchars : Json.Tree.chars (.number t) = (Json.number n).chars := ht
  rw [Rereads, ← Json.Document.text_of_chars hchars, Json.Document.read_eq_ok_iff_means]
  constructor
  · rintro ⟨hmeans, -⟩
    cases hmeans with
    | number h => exact h
  · intro h
    exact ⟨.number h, Nat.zero_le _⟩

theorem rereads_int {i : Int} (h : (Number.int i).InRange) : (Number.int i).Rereads (.int i) := by
  obtain ⟨t, ht, hread⟩ := Json.exists_numeralText h
  exact (rereads_iff ht).mpr hread

theorem rereads_float {f : Binary64} {m : Number} :
    (Number.float f).Rereads m ↔ ∃ g, f.reread? = some g ∧ m = .float g := by
  obtain ⟨t, hsign, ht, hmagnitude⟩ := Json.exists_numeralText_of_float f
  obtain ⟨n, hn, hvalue⟩ := f.readsAs_magnitudeChars
  have hread : t.number? = f.reread?.map .float := by
    unfold Json.NumeralText.number? Binary64.reread?
    rw [hmagnitude, hn, hsign]
    simp only [hvalue, Numeral.float]
    cases Binary64.scaled? f.negative f.written.1 f.written.2 <;> rfl
  rw [rereads_iff (n := .float f) ht, hread, Option.map_eq_some_iff]
  exact exists_congr fun g => and_congr_right fun _ => eq_comm

/-- The same integer, or a double of the same sign at most eight units of the last place away. -/
inductive Near : Number → Number → Prop
  | int (i : Int) : Near (.int i) (.int i)
  | float {f g : Binary64} (sign : g.negative = f.negative)
      (near : |g.magnitude - f.magnitude| ≤ 8 * 2 ^ f.exponent) : Near (.float f) (.float g)

theorem exists_rereads {n : Number} (h : n.InRange) : ∃ m, n.Rereads m := by
  cases n with
  | int i => exact ⟨_, rereads_int h⟩
  | float f =>
    obtain ⟨g, hg, -⟩ := f.exists_reread?
    exact ⟨_, rereads_float.mpr ⟨g, hg, rfl⟩⟩

theorem Rereads.near {n m : Number} (hn : n.InRange) (h : n.Rereads m) : n.Near m := by
  cases n with
  | int i =>
    obtain rfl := h.unique (rereads_int hn)
    exact .int i
  | float f =>
    obtain ⟨g, hg, rfl⟩ := rereads_float.mp h
    obtain ⟨g', hg', hsign, hnear⟩ := f.exists_reread?
    obtain rfl := Option.some.inj (hg.symm.trans hg')
    exact .float hsign hnear

theorem rereads_brief {f : Binary64} (h : f.Brief) : (Number.float f).Rereads (.float f) :=
  rereads_float.mpr ⟨f, Binary64.reread?_of_brief h, rfl⟩

end Number

namespace Json

mutual

/-- A tree that spells a value means that value with every number read anew. -/
theorem means_of_shows : ∀ {t : Tree} {v w : Json}, t.Shows v → Alike Number.Rereads v w →
    v.DistinctKeys → t.Means w
  | _, _, _, .null, .null, _ => .null
  | _, _, _, .bool _, .bool b, _ => .bool b
  | _, _, _, .number hn, .number h, _ => .number ((Number.rereads_iff hn).mp h)
  | _, _, _, .string h, .string _, _ => .string h
  | _, _, _, .emptyArray inner, .array .nil, _ => .emptyArray inner
  | _, _, _, .array h, .array hs, distinct => .array (mean_of_itemsShow h hs distinct)
  | _, _, _, .emptyObject inner, .object .nil, _ => .object (.empty inner) .nil
  | _, _, _, .object h, @Alike.object _ _ others hs, distinct => by
    have hnodup : (Fields.keys ([] ++ others)).Nodup := by
      rw [List.nil_append, hs.keys]
      exact distinct.1
    exact .object (.members (mean_of_membersShow h hs distinct.2))
      (Fields.resolves_iff.mpr (Fields.putAll_of_nodup hnodup))

theorem mean_of_itemsShow : ∀ {its : Items} {items others : List Json}, its.Show items →
    ItemsAlike Number.Rereads items others → ItemsDistinct items → its.Mean others
  | _, _, _, .last h, .cons ha .nil, distinct => .last (means_of_shows h ha distinct.1)
  | _, _, _, .more h hs, .cons ha has, distinct =>
    .more (means_of_shows h ha distinct.1) (mean_of_itemsShow hs has distinct.2)

theorem mean_of_membersShow : ∀ {members : Members} {fields others : List (String × Json)},
    members.Show fields → MembersAlike Number.Rereads fields others → MembersDistinct fields →
      members.Mean others
  | _, _, _, .last hk h, .cons _ ha .nil, distinct => .last hk (means_of_shows h ha distinct.1)
  | _, _, _, .more hk h hs, .cons _ ha has, distinct =>
    .more hk (means_of_shows h ha distinct.1) (mean_of_membersShow hs has distinct.2)

end

/-- The compact text of a value is read as that value with every number read anew. -/
theorem read_text_of_alike {v w : Json} (distinct : v.DistinctKeys) (shallow : v.depth ≤ nestingLimit)
    (h : Alike Number.Rereads v w) : read v.text = .ok w := by
  obtain ⟨d, htext, hdepth, hshows⟩ := exists_document_shows v
  rw [← htext]
  exact Document.read_eq_ok_iff_means.mpr
    ⟨means_of_shows hshows h distinct, hdepth.trans_le shallow⟩

theorem Fits.exists_near {v : Json} (h : v.Fits 0) :
    ∃ w, read v.text = .ok w ∧ Alike Number.Near v w := by
  obtain ⟨w, hw⟩ := exists_alike fun n hn => Number.exists_rereads (h.inRange n hn)
  have shallow : v.depth ≤ nestingLimit := by
    have := h.shallow
    omega
  exact ⟨w, read_text_of_alike h.distinct shallow hw,
    hw.mono fun n hn m hm => Number.Rereads.near (h.inRange n hn) hm⟩

end Json

end MetricUpload
