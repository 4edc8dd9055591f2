import CodeAtlas.Proofs.Config.DistinctNames
import CodeAtlas.Proofs.Config.Spelling
import CodeAtlas.Proofs.Json.RoundTrip

/-!
# Layers of settings

Laying fields over others decides name by name: a field has the value of the upper layer, or that of
the lower one where the upper has none. Objects that meet are merged, which no check of a single
setting can tell, so values are compared by their outline.
-/

namespace CodeAtlas

/-- The value with the content of an object forgotten. -/
def Value.outline : Value → Value
  | .object _ => .object []
  | v => v

namespace Fields

open Assoc Text

variable {fields new : Fields} {key name : String}

/-! ## One layer over another -/

theorem overlayValue_none (v : Value) : overlayValue none v = v := by
  cases v <;> rfl

theorem outline_overlayValue (old : Option Value) (v : Value) :
    (overlayValue old v).outline = v.outline := by
  cases v with
  | object new =>
    rw [overlayValue.eq_def]
    dsimp only
    split <;> rfl
  | _ => rfl

/-- Each field is taken from the upper layer, over what the lower one holds there. -/
theorem get?_overlay (hnew : new.keys.Nodup) :
    (overlay fields new).get? key =
      ((new.get? key).map (overlayValue (fields.get? key))).or (fields.get? key) := by
  induction new generalizing fields with
  | nil => rfl
  | cons e new ih =>
    obtain ⟨k, v⟩ := e
    obtain ⟨hk, hnew⟩ := List.nodup_cons.mp hnew
    rw [overlay, ih hnew, get?_set, get?_cons]
    by_cases heq : key = k
    · subst heq
      simp [get?_eq_none.mpr hk]
    · simp [heq]

theorem outline_get?_overlay (hnew : new.keys.Nodup) :
    ((overlay fields new).get? key).map Value.outline =
      ((new.get? key).or (fields.get? key)).map Value.outline := by
  rw [get?_overlay hnew, Option.map_or, Option.map_or, Option.map_map]
  congr 2
  funext v
  exact outline_overlayValue _ v

theorem mem_keys_overlay :
    key ∈ (overlay fields new).keys ↔ key ∈ fields.keys ∨ key ∈ new.keys := by
  induction new generalizing fields with
  | nil => simp [overlay, keys]
  | cons e new ih =>
    obtain ⟨k, v⟩ := e
    rw [overlay, ih, mem_keys_set]
    simp only [keys, List.map_cons, List.mem_cons]
    rw [or_assoc, or_left_comm]

/-- Over fields of other names a layer is just added. -/
theorem overlay_eq_append (h : (fields ++ new).keys.Nodup) :
    overlay fields new = fields ++ new := by
  induction new generalizing fields with
  | nil => simp [overlay]
  | cons e new ih =>
    obtain ⟨k, v⟩ := e
    have hk : k ∉ fields.keys := by
      intro hmem
      simp only [keys, List.map_append, List.map_cons] at h
      exact (List.nodup_append.mp h).2.2 k hmem k List.mem_cons_self rfl
    rw [overlay, get?_eq_none.mpr hk, overlayValue_none, set_of_not_mem hk, ih (by simpa using h)]
    simp

/-! ## Names settled after layering -/

/-- The last entry behind the one called `name` that is called so but for the case of letters. -/
def respelled? (fields : Fields) (name : String) : Option Value :=
  spelled? (fields.dropWhile (·.1 != name)).tail name

theorem settled_eq_iff {names : List String} (hname : name ∈ names) (hlower : lower name = name)
    (k : String) : (names.find? fun n => n == lower k).getD k = name ↔ lower k = name := by
  cases hfind : names.find? fun n => n == lower k with
  | some n =>
    have hn : n = lower k := by simpa using List.find?_some hfind
    rw [Option.getD_some, hn]
  | none =>
    rw [List.find?_eq_none] at hfind
    rw [Option.getD_none]
    constructor
    · rintro rfl
      exact absurd (beq_iff_eq.mpr hlower.symm) (hfind k hname)
    · intro hk
      exact absurd (beq_iff_eq.mpr hk.symm) (hfind name hname)

theorem get?_canonical {names : List String} (hname : name ∈ names) (hlower : lower name = name) :
    (canonical names fields).get? name = fields.spelled? name := by
  let settled : String → String := fun k => (names.find? fun n => n == lower k).getD k
  refine (get?_ofEntries _ name).trans ((last?_map settled fields).trans ?_)
  unfold spelled?
  congr 1
  funext k
  rw [Bool.eq_iff_iff, beq_iff_eq, beq_iff_eq]
  exact settled_eq_iff hname hlower k

theorem spelled?_cons (k : String) (v : Value) (fields : Fields) (name : String) :
    spelled? ((k, v) :: fields) name =
      (spelled? fields name).or (if lower k = name then some v else none) := by
  unfold spelled?
  rw [last?_cons]
  simp only [beq_iff_eq]

theorem respelled?_cons_self (v : Value) (fields : Fields) (name : String) :
    respelled? ((name, v) :: fields) name = spelled? fields name := by
  simp [respelled?]

theorem respelled?_cons_of_ne (hkey : key ≠ name) (v : Value) (fields : Fields) :
    respelled? ((key, v) :: fields) name = respelled? fields name := by
  simp [respelled?, hkey]

/-- An entry behind another is the last of all if it is the last behind that one. -/
theorem respelled?_or_spelled? :
    (respelled? fields name).or (fields.spelled? name) = fields.spelled? name := by
  induction fields with
  | nil => rfl
  | cons e fields ih =>
    obtain ⟨k, v⟩ := e
    rw [spelled?_cons, ← Option.or_assoc]
    by_cases hk : k = name
    · subst hk
      rw [respelled?_cons_self, Option.or_self]
    · rw [respelled?_cons_of_ne hk, ih]

theorem spelled?_set_self (hlower : lower name = name) (v : Value) :
    (fields.set name v).spelled? name = (respelled? fields name).or (some v) := by
  induction fields with
  | nil =>
    rw [Assoc.set, spelled?_cons, if_pos hlower]
    rfl
  | cons e fields ih =>
    obtain ⟨k, w⟩ := e
    by_cases hk : k = name
    · subst hk
      rw [respelled?_cons_self, Assoc.set, if_pos (beq_self_eq_true k), spelled?_cons,
        if_pos hlower]
    · rw [respelled?_cons_of_ne hk, Assoc.set, if_neg (by simpa using hk), spelled?_cons, ih,
        Option.or_assoc]
      rfl

theorem spelled?_set_of_ne (hkey : lower key ≠ name) (v : Value) :
    (fields.set key v).spelled? name = fields.spelled? name := by
  induction fields with
  | nil => simp [Assoc.set, spelled?_cons, hkey]
  | cons e fields ih =>
    obtain ⟨k, w⟩ := e
    by_cases hk : k = key
    · subst hk
      rw [Assoc.set, if_pos (beq_self_eq_true k), spelled?_cons, spelled?_cons, if_neg hkey,
        if_neg hkey]
    · rw [Assoc.set, if_neg (by simpa using hk), spelled?_cons, spelled?_cons, ih]

theorem respelled?_set_self (v : Value) :
    respelled? (fields.set name v) name = respelled? fields name := by
  induction fields with
  | nil => simp [Assoc.set, respelled?]
  | cons e fields ih =>
    obtain ⟨k, w⟩ := e
    by_cases hk : k = name
    · subst hk
      rw [Assoc.set, if_pos (beq_self_eq_true k), respelled?_cons_self, respelled?_cons_self]
    · rw [Assoc.set, if_neg (by simpa using hk), respelled?_cons_of_ne hk,
        respelled?_cons_of_ne hk, ih]

theorem respelled?_set_of_ne (hne : key ≠ name) (hkey : lower key ≠ name) (v : Value) :
    respelled? (fields.set key v) name = respelled? fields name := by
  induction fields with
  | nil => simp [Assoc.set, respelled?, hne]
  | cons e fields ih =>
    obtain ⟨k, w⟩ := e
    by_cases hk : k = key
    · subst hk
      rw [Assoc.set, if_pos (beq_self_eq_true k), respelled?_cons_of_ne hne,
        respelled?_cons_of_ne hne]
    · rw [Assoc.set, if_neg (by simpa using hk)]
      by_cases hname : k = name
      · subst hname
        rw [respelled?_cons_self, respelled?_cons_self, spelled?_set_of_ne hkey]
      · rw [respelled?_cons_of_ne hname, respelled?_cons_of_ne hname, ih]

/-- What a name stands for after a layer whose names are settled: another spelling behind the exact
one in the lower layer comes first, then the upper layer, then the lower one. -/
theorem spelled?_overlay (hlower : lower name = name) (hnew : new.keys.Nodup)
    (hsettled : ∀ k ∈ new.keys, lower k = name → k = name) :
    ((overlay fields new).spelled? name).map Value.outline =
      ((respelled? fields name).or
        ((new.get? name).or (fields.spelled? name))).map Value.outline := by
  induction new generalizing fields with
  | nil => rw [overlay, get?_nil, Option.none_or, respelled?_or_spelled?]
  | cons e new ih =>
    obtain ⟨k, v⟩ := e
    obtain ⟨hk, hnew⟩ := List.nodup_cons.mp hnew
    obtain ⟨hsettledK, hsettled⟩ := List.forall_mem_cons.mp hsettled
    rw [overlay, ih hnew hsettled, get?_cons]
    by_cases hname : name = k
    · subst hname
      rw [respelled?_set_self, spelled?_set_self hlower, get?_eq_none.mpr hk, if_pos rfl,
        Option.none_or, ← Option.or_assoc, Option.or_self, Option.some_or]
      simp only [Option.map_or, Option.map_some, outline_overlayValue]
    · have hkey : lower k ≠ name := fun h => hname (hsettledK h).symm
      rw [respelled?_set_of_ne (Ne.symm hname) hkey, spelled?_set_of_ne hkey, if_neg hname]

end Fields

end CodeAtlas
