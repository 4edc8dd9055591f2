import CodeAtlas.Config.Environment
import CodeAtlas.Proofs.Config.Entries

/-!
# Names up to the case of their letters

Names of variables are compared in small letters. Only the capitals of the plain alphabet and the
Kelvin sign have a plain small form, and neither is left in a text in small letters; so such a text
that spells a plain name is that name.
-/

namespace CodeAtlas

namespace Text

/-! ## Small letters -/

/-- Whether a character is none of those that have another, plain character as their small form. -/
def IsSmall (c : Char) : Prop :=
  ¬(0x41 ≤ c.toNat ∧ c.toNat ≤ 0x5a) ∧ c.toNat ≠ 0x212a

instance (c : Char) : Decidable (IsSmall c) :=
  inferInstanceAs (Decidable (_ ∧ _))

/-- Only one range of capitals is plain. None has its small forms below the small letters or at the
Kelvin sign, only two have plain ones, and all of them are characters. -/
theorem capitalRanges_bounds : ∀ r ∈ capitalRanges,
    (0x80 ≤ r.1 ∨ (r.1 = 0x41 ∧ r.2.1 = 0x5a)) ∧
    0x5a < (r.1 : Int) + r.2.2.2 ∧
    ((r.2.1 : Int) + r.2.2.2 < 0x212a ∨ 0x212a < (r.1 : Int) + r.2.2.2) ∧
    (0x80 ≤ (r.1 : Int) + r.2.2.2 ∨ (r.1 = 0x41 ∧ r.2.1 = 0x5a) ∨
      (r.1 = 0x212a ∧ r.2.1 = 0x212a)) ∧
    ((r.2.1 : Int) + r.2.2.2 < 0xd800 ∨
      (0xdfff < (r.1 : Int) + r.2.2.2 ∧ (r.2.1 : Int) + r.2.2.2 < 0x110000)) := by
  decide +kernel

theorem kelvin_mem_capitalRanges : (0x212a, 0x212a, 1, -8383) ∈ capitalRanges := by
  decide +kernel

/-- A character is its own small form, or lies in a range of capitals. -/
theorem lowerChar_cases (c : Char) :
    (lowerChar c = c ∧ IsSmall c) ∨
      ∃ r ∈ capitalRanges, r.1 ≤ c.toNat ∧ c.toNat ≤ r.2.1 ∧
        ((lowerChar c).toNat : Int) = c.toNat + r.2.2.2 := by
  unfold lowerChar
  dsimp only
  split
  · rename_i first last stride distance hfound
    have hmem := List.mem_of_find?_eq_some hfound
    have hrange := List.find?_some hfound
    simp only [Bool.and_eq_true, decide_eq_true_eq] at hrange
    obtain ⟨⟨hfirst, hlast⟩, -⟩ := hrange
    refine Or.inr ⟨_, hmem, hfirst, hlast, ?_⟩
    obtain ⟨-, hlow, -, -, hvalid⟩ := capitalRanges_bounds _ hmem
    dsimp only at hlow hvalid ⊢
    have hcode : ((c.toNat : Int) + distance).toNat.isValidChar := by
      unfold Nat.isValidChar
      omega
    unfold Char.ofNat
    rw [dif_pos hcode]
    show ((((c.toNat : Int) + distance).toNat : Nat) : Int) = _
    omega
  · rename_i hnone
    refine Or.inl ⟨rfl, ?_⟩
    rw [List.find?_eq_none] at hnone
    constructor
    · rintro ⟨hfirst, hlast⟩
      exact hnone (0x41, 0x5a, 1, 32) List.mem_cons_self (by simp [hfirst, hlast, Nat.mod_one])
    · intro hkelvin
      exact hnone (0x212a, 0x212a, 1, -8383) kelvin_mem_capitalRanges (by simp [hkelvin])

theorem isSmall_lowerChar (c : Char) : IsSmall (lowerChar c) := by
  rcases lowerChar_cases c with ⟨hsame, hsmall⟩ | ⟨r, hr, hfirst, hlast, hcode⟩
  · rwa [hsame]
  · obtain ⟨-, hlow, hkelvin, -, -⟩ := capitalRanges_bounds r hr
    unfold IsSmall
    omega

theorem lowerChar_eq_self {c : Char} (hc : IsSmall c) (hplain : (lowerChar c).toNat < 0x80) :
    lowerChar c = c := by
  rcases lowerChar_cases c with ⟨hsame, -⟩ | ⟨r, hr, hfirst, hlast, hcode⟩
  · exact hsame
  · obtain ⟨-, -, -, hplain', -⟩ := capitalRanges_bounds r hr
    unfold IsSmall at hc
    omega

theorem isSmall_of_mem_lower {s : String} {c : Char} (h : c ∈ (lower s).toList) : IsSmall c := by
  unfold lower at h
  rw [String.toList_ofList] at h
  obtain ⟨d, -, hd⟩ := List.mem_flatMap.mp h
  split at hd
  · rcases List.mem_cons.mp hd with rfl | hd
    · decide
    · rw [List.mem_singleton.mp hd]
      decide
  · rw [List.mem_singleton.mp hd]
    exact isSmall_lowerChar d

/-- Whether a text is plain and has no capitals. -/
def isPlainSmall (s : String) : Bool :=
  s.toList.all fun c => decide (IsSmall c) && decide (c.toNat < 0x80)

theorem isPlainSmall_iff {s : String} :
    isPlainSmall s = true ↔ ∀ c ∈ s.toList, IsSmall c ∧ c.toNat < 0x80 := by
  simp [isPlainSmall]

/-- A plain text without capitals is its own small form. -/
theorem lower_eq_self {s : String} (h : isPlainSmall s) : lower s = s := by
  rw [isPlainSmall_iff] at h
  have hchar : ∀ c ∈ s.toList,
      (if c.toNat == 0x130 then ['i', Char.ofNat 0x307] else [lowerChar c]) = [c] := by
    intro c hc
    obtain ⟨hsmall, hplain⟩ := h c hc
    rw [if_neg (by rw [beq_iff_eq]; omega)]
    rcases lowerChar_cases c with ⟨hsame, -⟩ | ⟨r, hr, hfirst, hlast, -⟩
    · rw [hsame]
    · obtain ⟨hrange, -⟩ := capitalRanges_bounds r hr
      unfold IsSmall at hsmall
      omega
  unfold lower
  rw [List.flatMap_def, List.map_congr_left hchar, ← List.flatMap_def, List.flatMap_singleton',
    String.ofList_toList]

/-- A text without capitals that spells a plain name is that name. -/
theorem eq_of_lower_eq {s name : String} (hs : ∀ c ∈ s.toList, IsSmall c)
    (hname : isPlainSmall name) (h : lower s = name) : s = name := by
  suffices hlist : ∀ cs ds : List Char, (∀ c ∈ cs, IsSmall c) → (∀ c ∈ ds, c.toNat < 0x80) →
      (cs.flatMap fun c => if c.toNat == 0x130 then ['i', Char.ofNat 0x307] else [lowerChar c]) =
        ds → cs = ds by
    refine String.toList_inj.mp (hlist _ _ hs (fun c hc => (isPlainSmall_iff.mp hname c hc).2) ?_)
    rw [← h, lower, String.toList_ofList]
  intro cs
  induction cs with
  | nil => exact fun ds _ _ h => h
  | cons c cs ih =>
    rintro ds hcs hds rfl
    obtain ⟨hc, hcs⟩ := List.forall_mem_cons.mp hcs
    rw [List.flatMap_cons] at hds ⊢
    obtain ⟨hhead, htail⟩ := List.forall_mem_append.mp hds
    rw [← ih _ hcs htail rfl]
    split
    · rename_i hdotted
      rw [if_pos hdotted] at hhead
      exact absurd (hhead (Char.ofNat 0x307) (by simp)) (by decide)
    · rename_i hplain
      rw [if_neg hplain] at hhead
      rw [lowerChar_eq_self hc (hhead _ List.mem_cons_self)]
      rfl

end Text

namespace Assoc

variable {β : Type}

/-- The value of the last entry called `name` but for the case of letters. -/
def spelled? (m : Assoc β) (name : String) : Option β :=
  m.last? fun k => Text.lower k == name

@[simp] theorem spelled?_nil (name : String) : spelled? ([] : Assoc β) name = none := rfl

end Assoc

/-! ## Paths in names -/

namespace Environment

/-- Whether a text may be one part of a name: no delimiter lies in it or starts at its end. -/
def isPart : List Char → Bool
  | '_' :: '_' :: _ => false
  | ['_'] => false
  | _ :: rest => isPart rest
  | [] => true

/-- Splitting passes over a part whatever follows it. -/
theorem splitName_pass {cs : List Char} (h : isPart cs) (part tail : List Char) :
    splitName part (cs ++ tail) = splitName (cs.reverse ++ part) tail := by
  fun_induction isPart cs generalizing part with
  | case1 => cases h
  | case2 => cases h
  | case3 c cs hdouble hsingle ih =>
    rw [List.cons_append, splitName.eq_2 _ _ _ ?_, ih h]
    · simp
    · intro rest hc hrest
      cases cs with
      | nil => exact hsingle hc rfl
      | cons d cs => exact hdouble cs hc (by rw [(List.cons.inj hrest).1])
  | case4 => rfl

theorem splitName_ne_nil (part cs : List Char) : splitName part cs ≠ [] := by
  fun_induction splitName part cs with
  | case1 => exact List.cons_ne_nil _ _
  | case2 _ _ _ _ ih => exact ih
  | case3 => exact List.cons_ne_nil _ _

/-- How a name begins: with its first part alone, or with that and a delimiter. -/
theorem splitName_cases {part cs : List Char} {first : String} {more : List String}
    (h : splitName part cs = first :: more) :
    (more = [] ∧ part.reverse ++ cs = first.toList) ∨
      ∃ rest, part.reverse ++ cs = first.toList ++ '_' :: '_' :: rest ∧
        more = splitName [] rest := by
  fun_induction splitName part cs with
  | case1 part rest =>
    obtain ⟨rfl, rfl⟩ := List.cons.inj h
    exact Or.inr ⟨rest, by simp, rfl⟩
  | case2 part c rest _ ih =>
    simpa using ih h
  | case3 part =>
    obtain ⟨rfl, rfl⟩ := List.cons.inj h
    exact Or.inl ⟨rfl, by simp⟩

theorem afterWord?_eq_some {word text rest : List Char} :
    Json.afterWord? word text = some rest ↔ text = word ++ rest := by
  induction word generalizing text with
  | nil => simp [Json.afterWord?]
  | cons w word ih =>
    cases text with
    | nil => simp [Json.afterWord?]
    | cons c text =>
      by_cases hc : w = c
      · simp [Json.afterWord?, hc, ih]
      · simp [Json.afterWord?, hc, Ne.symm hc]

/-- The variable that gives a field of a group. -/
def singleName (group field : String) : String :=
  stem ++ group ++ "__" ++ field

variable {group field name : String}

theorem pathBelow?_eq_some {path : List String} :
    pathBelow? group name = some path ↔
      ∃ rest, name.toList = (stem ++ group ++ "__").toList ++ rest ∧ path = splitName [] rest := by
  unfold pathBelow?
  simp only [Option.map_eq_some_iff, afterWord?_eq_some, String.toList_append, eq_comm (a := path)]
  rfl

/-- A variable gives a field just when it is called so. -/
theorem pathBelow?_single (hfield : isPart field.toList) :
    pathBelow? group name = some [field] ↔ name = singleName group field := by
  rw [pathBelow?_eq_some, ← String.toList_inj]
  simp only [singleName, String.toList_append]
  constructor
  · rintro ⟨rest, hname, hpath⟩
    rcases splitName_cases hpath.symm with ⟨-, hrest⟩ | ⟨tail, -, htail⟩
    · rw [hname, ← hrest]
      rfl
    · exact absurd htail.symm (splitName_ne_nil [] tail)
  · intro hname
    refine ⟨field.toList, hname, ?_⟩
    have hpass := splitName_pass hfield [] []
    rw [List.append_nil, List.append_nil] at hpass
    simp [hpass, splitName]

/-- A variable gives something below a field just when its name goes on behind that of the
field. -/
theorem pathBelow?_nested (hfield : isPart field.toList) :
    (∃ next more, pathBelow? group name = some (field :: next :: more)) ↔
      (singleName group field ++ "__").toList <+: name.toList := by
  simp only [pathBelow?_eq_some, singleName, String.toList_append]
  constructor
  · rintro ⟨next, more, rest, hname, hpath⟩
    rcases splitName_cases hpath.symm with ⟨hmore, -⟩ | ⟨tail, hrest, -⟩
    · cases hmore
    · refine ⟨tail, ?_⟩
      rw [hname, show rest = _ from hrest]
      simp
  · rintro ⟨tail, htail⟩
    have hpass := splitName_pass hfield [] ('_' :: '_' :: tail)
    obtain ⟨next, more, hmore⟩ := List.exists_cons_of_ne_nil (splitName_ne_nil [] tail)
    refine ⟨next, more, field.toList ++ '_' :: '_' :: tail, ?_, ?_⟩
    · rw [← htail]
      simp
    · rw [hpass, splitName, hmore]
      simp

/-- The parts of a path are spelled as in the name of the variable. -/
theorem mem_of_pathBelow? {more : List String} (h : pathBelow? group name = some (field :: more)) :
    ∀ c ∈ field.toList, c ∈ name.toList := by
  intro c hc
  obtain ⟨rest, hname, hpath⟩ := pathBelow?_eq_some.mp h
  rw [hname]
  refine List.mem_append_right _ ?_
  rcases splitName_cases hpath.symm with ⟨-, hrest⟩ | ⟨tail, hrest, -⟩
  · rw [show rest = _ from hrest]
    exact hc
  · rw [show rest = _ from hrest]
    exact List.mem_append_left _ hc

end Environment

end CodeAtlas
