import CodeAtlas.Proofs.Config.Layers

/-!
# What variables give

A group of settings comes from one variable that holds an object and from variables that give single
fields. Each field of the group is settled by itself: by what is called like it in the object, by
the variable of its own, or by variables that go on below it.
-/

namespace CodeAtlas

/-! ## Values at paths -/

namespace Fields

open Assoc

variable {fields : Fields} {field : String} {v : Value}

/-- Setting a path changes nothing, or the field that the path starts with. -/
theorem setPath_cases (fields : Fields) (path : List String) (v : Value) :
    setPath fields path v = fields ∨
      ∃ key w, path.head? = some key ∧ setPath fields path v = fields.set key w := by
  match path with
  | [] => exact Or.inl rfl
  | [key] => exact Or.inr ⟨key, v, rfl, rfl⟩
  | key :: next :: more =>
    rw [setPath]
    · split
      · exact Or.inr ⟨key, _, rfl, rfl⟩
      · exact Or.inr ⟨key, _, rfl, rfl⟩
      · exact Or.inl rfl
    · exact fun h => nomatch h

theorem get?_setPath_of_ne {path : List String} (h : path.head? ≠ some field) :
    (setPath fields path v).get? field = fields.get? field := by
  rcases setPath_cases fields path v with hsame | ⟨key, w, hkey, hset⟩
  · rw [hsame]
  · rw [hset, get?_set, if_neg]
    rintro rfl
    exact h hkey

/-- Below a field an object is made, unless something else stands there. -/
theorem get?_setPath_below (next : String) (more : List String) :
    ((setPath fields (field :: next :: more) v).get? field).map Value.outline =
      ((fields.get? field).or (some (.object []))).map Value.outline := by
  rw [setPath]
  · split
    · rename_i hnone
      rw [get?_set, if_pos rfl, hnone]
      rfl
    · rename_i hobject
      rw [get?_set, if_pos rfl, hobject]
      rfl
    · rename_i hother
      rw [hother]
      rfl
  · exact fun h => nomatch h

theorem nodup_keys_setPath (h : fields.keys.Nodup) (path : List String) (v : Value) :
    (setPath fields path v).keys.Nodup := by
  rcases setPath_cases fields path v with hsame | ⟨key, w, -, hset⟩
  · rwa [hsame]
  · rw [hset]
    exact nodup_keys_set h key w

theorem mem_keys_setPath {path : List String} {key : String}
    (h : key ∈ (setPath fields path v).keys) : key ∈ fields.keys ∨ path.head? = some key := by
  rcases setPath_cases fields path v with hsame | ⟨first, w, hfirst, hset⟩
  · rw [hsame] at h
    exact Or.inl h
  · rw [hset, mem_keys_set] at h
    rcases h with rfl | h
    · exact Or.inr hfirst
    · exact Or.inl h

end Fields

namespace Environment

open Assoc Text

variable {env : Environment} {group field : String}

/-! ## Single fields -/

/-- Whether a variable gives something below a field of a group. -/
def isBelow (group field name : String) : Bool :=
  (singleName group field ++ "__").toList.isPrefixOf name.toList

def addSingle (group : String) (fields : Fields) (e : String × String) : Fields :=
  match pathBelow? group e.1 with
  | some path => Fields.setPath fields path (.str e.2)
  | none => fields

theorem singleFields_eq (env : Environment) (group : String) :
    env.singleFields group = env.foldl (addSingle group) [] := rfl

/-- The variable of a field sets it, and one below it makes an object where there is nothing. -/
theorem get?_addSingle (hfield : isPart field.toList) (fields : Fields) (name v : String) :
    ((addSingle group fields (name, v)).get? field).map Value.outline =
      ((if name = singleName group field then some (.str v) else none).or
        ((fields.get? field).or
          (if isBelow group field name then some (.object []) else none))).map Value.outline := by
  have hbelow : isBelow group field name = true ↔
      ∃ next more, pathBelow? group name = some (field :: next :: more) := by
    rw [pathBelow?_nested hfield, isBelow, List.isPrefixOf_iff_prefix]
  have hsingle : name = singleName group field ↔ pathBelow? group name = some [field] :=
    (pathBelow?_single hfield).symm
  unfold addSingle
  dsimp only
  cases hpath : pathBelow? group name with
  | none => simp [hsingle, hbelow, hpath]
  | some path =>
    match path with
    | [] => simp [hsingle, hbelow, hpath, Fields.setPath]
    | [key] =>
      by_cases hkey : key = field
      · simp [hsingle, hpath, hkey, Fields.setPath, get?_set]
      · simp [hsingle, hbelow, hpath, hkey, Fields.setPath, get?_set, Ne.symm hkey]
    | key :: next :: more =>
      by_cases hkey : key = field
      · subst hkey
        rw [Fields.get?_setPath_below]
        simp [hsingle, hbelow, hpath]
      · rw [Fields.get?_setPath_of_ne (by simpa using hkey)]
        simp [hsingle, hbelow, hpath, hkey]

theorem ite_or_ite {α : Type} (a b : Bool) (x : α) :
    (if (a || b) = true then some x else none) =
      (if a = true then some x else none).or (if b = true then some x else none) := by
  cases a <;> cases b <;> rfl

/-- All variables in turn: the last one called like the field, else what was there before, else an
object if some variable goes on below the field. -/
theorem get?_foldl_addSingle (hfield : isPart field.toList) (entries : Environment)
    (fields : Fields) :
    ((entries.foldl (addSingle group) fields).get? field).map Value.outline =
      (((entries.last? (· == singleName group field)).map Value.str).or
        ((fields.get? field).or
          (if entries.any (fun e => isBelow group field e.1) then some (.object [])
            else none))).map Value.outline := by
  induction entries generalizing fields with
  | nil => simp
  | cons e entries ih =>
    obtain ⟨name, v⟩ := e
    rw [List.foldl_cons, ih, last?_cons, List.any_cons, ite_or_ite, Option.map_or, Option.map_or,
      get?_addSingle hfield]
    simp only [Option.map_or, beq_iff_eq, Option.or_assoc]
    congr 2
    split <;> rfl

/-- What variables below a field give: an object, whatever it holds. -/
def nested? (env : Environment) (group field : String) : Option Value :=
  if env.any (fun e => isBelow group field (lower e.1)) then some (.object []) else none

theorem nodup_keys_lowered (env : Environment) : env.lowered.keys.Nodup :=
  nodup_keys_ofEntries _

theorem mem_keys_lowered {name : String} :
    name ∈ env.lowered.keys ↔ ∃ e ∈ env, lower e.1 = name := by
  unfold lowered
  rw [mem_keys_ofEntries]
  simp [keys]

/-- Of the variables that differ only in case the last counts. -/
theorem get?_lowered (env : Environment) (name : String) :
    env.lowered.get? name = env.spelled? name :=
  (get?_ofEntries _ name).trans (last?_map lower env)

theorem any_lowered (env : Environment) (p : String → Bool) :
    env.lowered.any (fun e => p e.1) = env.any fun e => p (lower e.1) := by
  have hkeys : ∀ m : Environment, m.any (fun e => p e.1) = m.keys.any p := by
    intro m
    rw [keys, List.any_map]
    rfl
  rw [hkeys, Bool.eq_iff_iff, List.any_eq_true, List.any_eq_true]
  simp only [mem_keys_lowered]
  constructor
  · rintro ⟨name, ⟨e, he, rfl⟩, hp⟩
    exact ⟨e, he, hp⟩
  · rintro ⟨e, he, hp⟩
    exact ⟨lower e.1, ⟨e, he, rfl⟩, hp⟩

theorem get?_singleFields (hfield : isPart field.toList) (env : Environment) (group : String) :
    ((env.lowered.singleFields group).get? field).map Value.outline =
      (((env.spelled? (singleName group field)).map Value.str).or
        (env.nested? group field)).map Value.outline := by
  rw [singleFields_eq, get?_foldl_addSingle hfield, last?_beq (nodup_keys_lowered env),
    get?_lowered, any_lowered, get?_nil, Option.none_or]
  rfl

/-- The fields that single variables give are named once, in small letters. -/
theorem keys_singleFields (env : Environment) (group : String) :
    (env.lowered.singleFields group).keys.Nodup ∧
      ∀ key ∈ (env.lowered.singleFields group).keys, ∀ c ∈ key.toList, IsSmall c := by
  have hsmall : ∀ e ∈ env.lowered, ∀ c ∈ e.1.toList, IsSmall c := by
    intro e he c hc
    obtain ⟨e', -, hlower⟩ := mem_keys_lowered.mp (List.mem_map_of_mem he)
    exact isSmall_of_mem_lower (hlower ▸ hc)
  rw [singleFields_eq]
  refine List.foldlRecOn (motive := fun fields : Fields => fields.keys.Nodup ∧
    ∀ key ∈ fields.keys, ∀ c ∈ key.toList, IsSmall c) _ _ ?_ ?_
  · exact ⟨List.nodup_nil, fun _ hkey => nomatch hkey⟩
  · rintro fields ⟨hnodup, hkeys⟩ ⟨name, v⟩ he
    unfold addSingle
    split
    · rename_i path hpath
      refine ⟨Fields.nodup_keys_setPath hnodup path _, fun key hkey c hc => ?_⟩
      rcases Fields.mem_keys_setPath hkey with hkey | hhead
      · exact hkeys key hkey c hc
      · obtain ⟨more, rfl⟩ : ∃ more, path = key :: more := by
          cases path with
          | nil => cases hhead
          | cons first more => exact ⟨more, by rw [Option.some.inj hhead]⟩
        exact hsmall _ he c (mem_of_pathBelow? hpath c hc)
    · exact ⟨hnodup, hkeys⟩

/-! ## Groups -/

/-- What the names of settings are like: small letters without a delimiter. -/
structure Plain (name : String) : Prop where
  small : isPlainSmall name
  part : isPart name.toList

instance (name : String) : Decidable (Plain name) :=
  decidable_of_iff (isPlainSmall name ∧ isPart name.toList)
    ⟨fun h => ⟨h.1, h.2⟩, fun h => ⟨h.small, h.part⟩⟩

theorem Plain.lower_eq (h : Plain field) : lower field = field :=
  lower_eq_self h.small

/-- The object that the variable of a group holds. -/
def jsonFields (env : Environment) (group : String) : Fields :=
  match (env.spelled? (stem ++ group)).map Json.parse with
  | some (.ok (.object fields)) => fields
  | _ => []

/-- What the environment gives to a field of a group. The variable of the field comes before the
object of the group, unless that holds the field under its proper name and again, in other letters,
behind it. -/
def fieldValue? (env : Environment) (group field : String) : Option Value :=
  ((env.jsonFields group).respelled? field).or <|
    ((env.spelled? (singleName group field)).map Value.str).or <|
      (env.nested? group field).or ((env.jsonFields group).spelled? field)

theorem get?_canonical_overlay {names : List String} (hmem : field ∈ names) (hfield : Plain field)
    (env : Environment) (group : String) (json : Fields) :
    ((Fields.canonical names (Fields.overlay json (env.lowered.singleFields group))).get?
        field).map Value.outline =
      ((json.respelled? field).or <|
        ((env.spelled? (singleName group field)).map Value.str).or <|
          (env.nested? group field).or (json.spelled? field)).map Value.outline := by
  obtain ⟨hnodup, hsmall⟩ := keys_singleFields env group
  rw [Fields.get?_canonical hmem hfield.lower_eq, Fields.spelled?_overlay hfield.lower_eq hnodup]
  · have hsingle := get?_singleFields hfield.part env group
    simp only [Option.map_or] at hsingle ⊢
    rw [hsingle, Option.or_assoc]
  · intro key hkey hlower
    exact eq_of_lower_eq (hsmall key hkey) hfield.small hlower

end Environment

/-- The fields of the object at a name; none where there is no object. -/
def Fields.below (fields : Fields) (group : String) : Fields :=
  ((fields.get? group).bind Value.fields?).getD []

namespace Environment

open Assoc Text

variable {env : Environment} {group field : String}

/-- What the environment gives to a group: nothing, or an object that has each field as settled. -/
theorem groupEntry_eq_ok {names : List String} (hnames : ∀ field ∈ names, Plain field)
    (hjson : ∀ text, env.spelled? (stem ++ group) = some text →
      ∃ fields, Json.parse text = .ok (.object fields)) :
    ∃ entry : Fields, env.lowered.groupEntry group names = .ok entry ∧
      (entry = [] ∨ ∃ fields, entry = [(group, .object fields)]) ∧
      ∀ field ∈ names, ((entry.below group).get? field).map Value.outline =
        (env.fieldValue? group field).map Value.outline := by
  have hlookup : env.lowered.get? (stem ++ group) = env.spelled? (stem ++ group) :=
    get?_lowered env (stem ++ group)
  -- The variable of the group and the single ones are merged in all cases but one: without either
  -- of them the group is left out.
  suffices hentry : ∃ entry : Fields, env.lowered.groupEntry group names = .ok entry ∧
      (entry = [] ∨ ∃ fields, entry = [(group, .object fields)]) ∧
      entry.below group = Fields.canonical names
        (Fields.overlay (env.jsonFields group) (env.lowered.singleFields group)) by
    obtain ⟨entry, hok, hshape, hbelow⟩ := hentry
    refine ⟨entry, hok, hshape, fun field hfield => ?_⟩
    rw [hbelow, get?_canonical_overlay hfield (hnames field hfield)]
    rfl
  unfold groupEntry groupValue jsonFields
  rw [hlookup]
  cases hvariable : env.spelled? (stem ++ group) with
  | none =>
    have hsingles : Fields.overlay [] (env.lowered.singleFields group) =
        env.lowered.singleFields group :=
      Fields.overlay_eq_append (keys_singleFields env group).1
    simp only [Option.map_none, hsingles]
    split
    · rename_i hnone
      rw [hnone]
      exact ⟨[], rfl, Or.inl rfl, rfl⟩
    · exact ⟨_, rfl, Or.inr ⟨_, rfl⟩, by simp [Fields.below, get?_cons, Value.fields?]⟩
  | some text =>
    obtain ⟨json, hparse⟩ := hjson text hvariable
    simp only [Option.map_some, hparse]
    exact ⟨_, rfl, Or.inr ⟨_, rfl⟩, by simp [Fields.below, get?_cons, Value.fields?]⟩

end Environment

end CodeAtlas
