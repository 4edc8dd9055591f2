import CodeAtlas.Proofs.Config.Settings
import CodeAtlas.Proofs.Config.DistinctNames
import CodeAtlas.Value.Likeness
import Mathlib.Data.List.Perm.Subperm

/-!
# What is like a written setting is taken as that setting

A setting is written as a plain value. Whatever means the same as that value, be it a number in
another form or an object with its fields in another order, passes the check of the setting and
gives back what was written.
-/

namespace CodeAtlas

/-! ## Like values -/

namespace Value

variable {v : Value}

theorem isLike_null : v.isLike .null = true ↔ v = .null := by
  cases v <;> simp [isLike, magnitude?]

theorem isLike_str {s : String} : v.isLike (.str s) = true ↔ v = .str s := by
  cases v <;> simp [isLike, magnitude?]

theorem isLike_int {i : Int} : v.isLike (.int i) = true ↔ v.magnitude? = some (.whole i) := by
  cases v <;> simp [isLike, magnitude?]

theorem isLike_bool {b : Bool} :
    v.isLike (.bool b) = true ↔ v.magnitude? = some (.whole (if b then 1 else 0)) := by
  cases v <;> simp [isLike, magnitude?]

/-- A float that compares like a whole number is one. -/
theorem exists_of_magnitude?_float {x : Float} {i : Int}
    (h : (Value.float x).magnitude? = some (.whole i)) :
    ∃ d, Dyadic.classify x = .finite d ∧ d.toInt? = some i := by
  simp only [magnitude?, Option.some.injEq] at h
  split at h
  · cases h
  · cases h
  · rename_i d hd
    split at h
    · rename_i j hj
      obtain rfl := Magnitude.whole.inj h
      exact ⟨d, hd, hj⟩
    · cases h

theorem isLike_object {fields : Fields} :
    v.isLike (.object fields) = true ↔
      ∃ fields', v = .object fields' ∧ Fields.isLike fields' fields = true := by
  cases v <;> simp [isLike, magnitude?, Fields.isLike]

theorem fieldsWithin_iff {as bs : Fields} :
    fieldsWithin as bs = true ↔ ∀ p ∈ as, ∃ b, bs.get? p.1 = some b ∧ p.2.isLike b = true := by
  induction as with
  | nil => simp [fieldsWithin]
  | cons p as ih =>
    obtain ⟨k, a⟩ := p
    rw [fieldsWithin, Bool.and_eq_true, ih, List.forall_mem_cons]
    cases bs.get? k <;> simp

end Value

namespace Fields

variable {as bs : Fields} {key : String} {b : Value}

theorem keys_subset_of_isLike (h : isLike as bs = true) : Assoc.keys as ⊆ Assoc.keys bs := by
  intro key hkey
  obtain ⟨p, hp, rfl⟩ := List.mem_map.mp hkey
  obtain ⟨b, hb, -⟩ := Value.fieldsWithin_iff.mp (Bool.and_eq_true_iff.mp h).2 p hp
  exact List.mem_map.mpr ⟨_, Assoc.mem_of_get? hb, rfl⟩

/-- Of two objects alike, the one that names its fields once has all names of the other. -/
theorem get?_of_isLike (has : as.keys.Nodup) (h : isLike as bs = true) (hb : bs.get? key = some b) :
    ∃ a, as.get? key = some a ∧ a.isLike b = true := by
  obtain ⟨hlength, hwithin⟩ := Bool.and_eq_true_iff.mp h
  have hperm : as.keys.Perm bs.keys := by
    refine (has.subperm (keys_subset_of_isLike h)).perm_of_length_le ?_
    simp [Assoc.keys, beq_iff_eq.mp hlength]
  have hkey : key ∈ as.keys := hperm.mem_iff.mpr (List.mem_map.mpr ⟨_, Assoc.mem_of_get? hb, rfl⟩)
  cases ha : as.get? key with
  | none => exact absurd hkey (Assoc.get?_eq_none.mp ha)
  | some a =>
    obtain ⟨b', hb', hlike⟩ := Value.fieldsWithin_iff.mp hwithin (key, a) (Assoc.mem_of_get? ha)
    obtain rfl : b = b' := Option.some.inj (hb.symm.trans hb')
    exact ⟨a, rfl, hlike⟩

theorem get?_below_eq_some {fields : Fields} {group name : String} {v : Value} :
    (fields.below group).get? name = some v ↔
      ∃ inner : Fields, fields.get? group = some (.object inner) ∧ inner.get? name = some v := by
  unfold below
  cases fields.get? group with
  | none => simp
  | some w => cases w <;> simp [Value.fields?]

end Fields

/-! ## Checks of numbers look at the number only -/

namespace Check

open Checked

variable {v : Value} {i lo hi : Int}

theorem int_of_magnitude? (hv : v.magnitude? = some (.whole i)) (hsize : i.natAbs < 0x8000000000000000) :
    int v = .accepted i := by
  cases v with
  | bool b =>
    obtain rfl := Magnitude.whole.inj (Option.some.inj hv)
    rfl
  | int j =>
    obtain rfl := Magnitude.whole.inj (Option.some.inj hv)
    rfl
  | float x =>
    obtain ⟨d, hd, hd'⟩ := Value.exists_of_magnitude?_float hv
    simp only [int, floatInt, hd, hd']
    rw [if_neg (by omega)]
  | _ => cases hv

theorem intBetween_of_isLike (hlo : 0 ≤ lo) (hhi : hi < 0x8000000000000000) (hrange : lo ≤ i ∧ i ≤ hi)
    (h : v.isLike (.int i) = true) : intBetween lo hi v = .accepted i := by
  unfold intBetween
  rw [int_of_magnitude? (Value.isLike_int.mp h) (by omega)]
  simp only [andThen]
  rw [if_neg (by omega), if_neg (by omega)]

theorem bool_of_isLike {b : Bool} (h : v.isLike (.bool b) = true) : bool v = .accepted b := by
  have hv := Value.isLike_bool.mp h
  cases v with
  | bool c => cases b <;> cases c <;> simp_all [Value.magnitude?, bool]
  | int j =>
    obtain rfl := Magnitude.whole.inj (Option.some.inj hv)
    cases b <;> rfl
  | float x =>
    obtain ⟨d, hd, hd'⟩ := Value.exists_of_magnitude?_float hv
    simp only [bool, hd, hd']
    cases b <;> rfl
  | _ => cases hv

theorem word_of_isLike {α : Type} [Spelled α] {kind : IssueKind} {a : α}
    (h : v.isLike (.str (Spelled.text a)) = true) : word α kind v = .accepted a := by
  rw [Value.isLike_str.mp h, Document.word_text kind a]

/-- Null is written for nothing, and nothing else is written like null. -/
theorem nullable_of_isLike {α : Type} {check : Value → Checked α} {written : α → Value}
    {x : Option α} (hnull : ∀ a, Value.null.isLike (written a) = false)
    (hcheck : ∀ a ∈ x, v.isLike (written a) = true → check v = .accepted a)
    (h : v.isLike ((x.map written).getD .null) = true) : nullable check v = .accepted x := by
  cases x with
  | none => rw [Value.isLike_null.mp h]; rfl
  | some a =>
    have hv : v ≠ .null := by
      rintro rfl
      exact absurd h (by simp [hnull])
    have hsome : nullable check v = (check v).map some := by
      cases v <;> first | rfl | exact absurd rfl hv
    rw [hsome, hcheck a rfl h]
    rfl

end Check

/-! ## Written settings -/

namespace Setting

/-- The value that a setting is written as. -/
def written : (s : Setting) → s.Range → Value
  | .logLevel, level => .str (Spelled.text level)
  | .pathMaxDepth, bound => (bound.map Value.int).getD .null
  | .cycleMaxLength, bound => (bound.map Value.int).getD .null
  | .uniqueCycles, flag => .bool flag
  | .dotGraphName, name => .str name
  | .dotIndent, width => .int width
  | .dotRankDir, direction => (direction.map fun r => Value.str (Spelled.text r)).getD .null
  | .onDanglingEdge, policy => .str (Spelled.text policy)
  | .jsonIndent, width => (width.map Value.int).getD .null

theorem nullable_intBetween_of_isLike {lo hi : Int} {bound : Option Int} {v : Value}
    (hlo : 0 ≤ lo) (hhi : hi < 0x8000000000000000) (hbound : ∀ n ∈ bound, lo ≤ n ∧ n ≤ hi)
    (h : v.isLike ((bound.map Value.int).getD .null) = true) :
    Check.nullable (Check.intBetween lo hi) v = .accepted bound := by
  refine Check.nullable_of_isLike (fun n => rfl) (fun n hn hlike => ?_) h
  exact Check.intBetween_of_isLike hlo hhi (hbound n hn) hlike

/-- The check of a setting takes back what is like its written form. -/
theorem check_of_isLike {s : Setting} {a : s.Range} {v : Value} (ha : s.Within a)
    (h : v.isLike (s.written a) = true) : s.check v = .accepted a := by
  cases s with
  | logLevel => exact Check.word_of_isLike h
  | pathMaxDepth => exact nullable_intBetween_of_isLike (by decide) (by decide) ha h
  | cycleMaxLength => exact nullable_intBetween_of_isLike (by decide) (by decide) ha h
  | uniqueCycles => exact Check.bool_of_isLike h
  | dotGraphName => exact Check.nonemptyText_eq_accepted.mpr ⟨Value.isLike_str.mp h, ha⟩
  | dotIndent => exact Check.intBetween_of_isLike (by decide) (by decide) ha h
  | dotRankDir =>
    refine Check.nullable_of_isLike (fun r => rfl) (fun r hr hlike => ?_) h
    exact Check.word_of_isLike hlike
  | onDanglingEdge => exact Check.word_of_isLike h
  | jsonIndent => exact nullable_intBetween_of_isLike (by decide) (by decide) ha h

/-- A setting that is there stands at the top or in the object of its group. -/
theorem find?_eq_some {s : Setting} {fields : Fields} {v : Value} :
    s.find? fields = some v ↔
      (s.group? = none ∧ fields.get? s.name = some v) ∨
        ∃ group inner, s.group? = some group ∧ fields.get? group = some (.object inner) ∧
          Assoc.get? inner s.name = some v := by
  unfold find?
  cases s.group? with
  | none => simp
  | some group => simp [Fields.get?_below_eq_some]

/-- Fields that are alike hold like values of each setting. -/
theorem find?_of_isLike {s : Setting} {given fields : Fields} {w : Value}
    (hgiven : given.NamesOnce) (h : given.isLike fields = true) (hw : s.find? fields = some w) :
    ∃ v, s.find? given = some v ∧ v.isLike w = true := by
  simp only [find?_eq_some] at hw ⊢
  rcases hw with ⟨hgroup, hw⟩ | ⟨group, inner, hgroup, hinner, hw⟩
  · obtain ⟨v, hv, hlike⟩ := Fields.get?_of_isLike hgiven.nodup h hw
    exact ⟨v, Or.inl ⟨hgroup, hv⟩, hlike⟩
  · obtain ⟨v, hv, hlike⟩ := Fields.get?_of_isLike hgiven.nodup h hinner
    obtain ⟨inner', rfl, hlike⟩ := Value.isLike_object.mp hlike
    have honce : Fields.NamesOnce inner' := .of_object (hgiven.get? hv)
    obtain ⟨u, hu, hlike⟩ := Fields.get?_of_isLike honce.nodup hlike hw
    exact ⟨u, Or.inr ⟨group, inner', hgroup, hv, hu⟩, hlike⟩

end Setting

end CodeAtlas
