import CodeAtlas.Proofs.Document.SingleValues

/-!
# Forms of data

A form says what a piece of data has to look like: a single value, a list of items of one form, or a
record with declared fields, each of which has to be there or may be absent. From the form alone
follow the places at which data offends, the order in which places are gone through, and which
differences between data do not matter. A check is governed by a form when its issues are just the
offences, in that order; the checks of fields, records and lists are governed as soon as the checks
of their parts are.
-/

namespace CodeAtlas

/-- A field of a record: its name, whether it has to be there, and the form of its value. -/
structure FieldRule (φ : Type) where
  name : String
  required : Bool
  form : φ

/-- What a piece of data has to look like; a single value is described by the reasons against it. -/
inductive Form where
  | single (unfit : Value → IssueKind → Prop)
  | list (item : Form)
  | record (rules : List (FieldRule Form))

namespace Fields

/-- The field is there, and its value is such. -/
def Has (fields : Fields) (name : String) (p : Value → Prop) : Prop :=
  ∃ v, fields.get? name = some v ∧ p v

/-- The field is absent, or its value is such. -/
def May (fields : Fields) (name : String) (p : Value → Prop) : Prop :=
  ∀ v, fields.get? name = some v → p v

end Fields

namespace Form

open Check

/-! ## Offences -/

/-- At this path, the value offends against the form in this way. -/
inductive Offends : Form → Value → List Step → IssueKind → Prop
  | unfit {unfit : Value → IssueKind → Prop} {v : Value} {kind : IssueKind} :
    unfit v kind → Offends (.single unfit) v [] kind
  | notList {item : Form} {v : Value} : ¬IsList v → Offends (.list item) v [] .notList
  | notRecord {rules : List (FieldRule Form)} {v : Value} :
    ¬IsObject v → Offends (.record rules) v [] .notRecord
  | absent {rules : List (FieldRule Form)} {rule : FieldRule Form} {fields : Fields} :
    rule ∈ rules → rule.required = true → fields.get? rule.name = none →
      Offends (.record rules) (.object fields) [.field rule.name] .missing
  | field {rules : List (FieldRule Form)} {rule : FieldRule Form} {fields : Fields} {v : Value}
      {path : List Step} {kind : IssueKind} :
    rule ∈ rules → fields.get? rule.name = some v → Offends rule.form v path kind →
      Offends (.record rules) (.object fields) (.field rule.name :: path) kind
  | item {item : Form} {items : List Value} {i : Nat} {v : Value} {path : List Step}
      {kind : IssueKind} :
    items[i]? = some v → Offends item v path kind →
      Offends (.list item) (.list items) (.index i :: path) kind

/-- Nowhere does the value offend against the form. -/
def Clean (form : Form) (v : Value) : Prop :=
  ∀ path kind, ¬form.Offends v path kind

/-- Which of two places comes first: fields come as they are declared, items by their index. -/
inductive Precedes : Form → List Step → List Step → Prop
  | declared {rules : List (FieldRule Form)} {r r' : FieldRule Form} {path path' : List Step} :
    [r, r'].Sublist rules → r.name ≠ r'.name →
      Precedes (.record rules) (.field r.name :: path) (.field r'.name :: path')
  | field {rules : List (FieldRule Form)} {rule : FieldRule Form} {path path' : List Step} :
    rule ∈ rules → Precedes rule.form path path' →
      Precedes (.record rules) (.field rule.name :: path) (.field rule.name :: path')
  | index {item : Form} {i j : Nat} {path path' : List Step} :
    i < j → Precedes (.list item) (.index i :: path) (.index j :: path')
  | item {item : Form} {i : Nat} {path path' : List Step} :
    Precedes item path path' → Precedes (.list item) (.index i :: path) (.index i :: path')

/-- Two values that agree in all that the form declares: within records, they may differ in other
fields and in the order of fields. -/
inductive Alike : Form → Value → Value → Prop
  | same {form : Form} {v : Value} : Alike form v v
  | record {rules : List (FieldRule Form)} {fields fields' : Fields} :
    (∀ rule ∈ rules, fields.get? rule.name = none ↔ fields'.get? rule.name = none) →
    (∀ rule ∈ rules, ∀ v v', fields.get? rule.name = some v → fields'.get? rule.name = some v' →
      Alike rule.form v v') →
    Alike (.record rules) (.object fields) (.object fields')
  | list {item : Form} {items items' : List Value} :
    items.length = items'.length →
    (∀ (i : Nat) v v', items[i]? = some v → items'[i]? = some v' → Alike item v v') →
    Alike (.list item) (.list items) (.list items')

variable {form item : Form} {rules rules' : List (FieldRule Form)} {rule : FieldRule Form}
  {fields fields' : Fields} {v v' : Value} {items items' : List Value}
  {path path' : List Step} {kind : IssueKind} {unfit : Value → IssueKind → Prop}

theorem offends_single : (single unfit).Offends v path kind ↔ path = [] ∧ unfit v kind := by
  constructor
  · rintro ⟨h⟩
    exact ⟨rfl, h⟩
  · rintro ⟨rfl, h⟩
    exact .unfit h

theorem offends_of_not_isList (h : ¬IsList v) :
    (list item).Offends v path kind ↔ path = [] ∧ kind = .notList := by
  constructor
  · intro hoffends
    cases hoffends with
    | notList => exact ⟨rfl, rfl⟩
    | item => exact absurd ⟨_, rfl⟩ h
  · rintro ⟨rfl, rfl⟩
    exact .notList h

theorem offends_list : (list item).Offends (.list items) path kind ↔
    ∃ i w rest, items[i]? = some w ∧ path = .index i :: rest ∧ item.Offends w rest kind := by
  constructor
  · intro hoffends
    cases hoffends with
    | notList h => exact absurd ⟨_, rfl⟩ h
    | item hw h => exact ⟨_, _, _, hw, rfl, h⟩
  · rintro ⟨i, w, rest, hw, rfl, h⟩
    exact .item hw h

theorem offends_of_not_isObject (h : ¬IsObject v) :
    (record rules).Offends v path kind ↔ path = [] ∧ kind = .notRecord := by
  constructor
  · intro hoffends
    cases hoffends with
    | notRecord => exact ⟨rfl, rfl⟩
    | absent | field => exact absurd ⟨_, rfl⟩ h
  · rintro ⟨rfl, rfl⟩
    exact .notRecord h

/-- The offences of a record are those of its fields. -/
theorem offends_object : (record rules).Offends (.object fields) path kind ↔
    ∃ rule ∈ rules, (rule.required = true ∧ fields.get? rule.name = none ∧
        path = [.field rule.name] ∧ kind = .missing) ∨
      ∃ w rest, fields.get? rule.name = some w ∧ path = .field rule.name :: rest ∧
        rule.form.Offends w rest kind := by
  constructor
  · intro hoffends
    cases hoffends with
    | notRecord h => exact absurd ⟨_, rfl⟩ h
    | absent hrule hrequired hnone => exact ⟨_, hrule, Or.inl ⟨hrequired, hnone, rfl, rfl⟩⟩
    | field hrule hw h => exact ⟨_, hrule, Or.inr ⟨_, _, hw, rfl, h⟩⟩
  · rintro ⟨rule, hrule, ⟨hrequired, hnone, rfl, rfl⟩ | ⟨w, rest, hw, rfl, h⟩⟩
    · exact .absent hrule hrequired hnone
    · exact .field hrule hw h

theorem offends_append : (record (rules ++ rules')).Offends (.object fields) path kind ↔
    (record rules).Offends (.object fields) path kind ∨
      (record rules').Offends (.object fields) path kind := by
  simp only [offends_object, List.mem_append, or_and_right, exists_or]

theorem exists_field_of_offends (h : (record rules).Offends (.object fields) path kind) :
    ∃ rule ∈ rules, ∃ rest, path = .field rule.name :: rest := by
  obtain ⟨rule, hrule, ⟨-, -, hpath, -⟩ | ⟨-, rest, -, hpath, -⟩⟩ := offends_object.mp h
  · exact ⟨rule, hrule, [], hpath⟩
  · exact ⟨rule, hrule, rest, hpath⟩

/-! ## Data without offences -/

/-- What a check decides to fit is what there is no reason against. -/
theorem clean_single {α : Type} {check : Value → Checked α} {fits : Value → Prop}
    (h : ∀ v, Decides check fits unfit v) : (single unfit).Clean = fits := by
  ext v
  unfold Clean
  simp only [offends_single]
  rcases h v with ⟨a, -, hfits, hnone⟩ | ⟨kind, -, hfits, honly⟩
  · exact iff_of_true (fun path kind hunfit => hnone kind hunfit.2) hfits
  · exact iff_of_false (fun hclean => hclean [] kind ⟨rfl, (honly kind).mpr rfl⟩) hfits

theorem clean_list :
    (list item).Clean v ↔ ∃ items, v = .list items ∧ ∀ w ∈ items, item.Clean w := by
  constructor
  · intro h
    by_cases hlist : IsList v
    · obtain ⟨items, rfl⟩ := hlist
      refine ⟨items, rfl, fun w hw rest kind hoffends => ?_⟩
      obtain ⟨i, hi⟩ := List.getElem?_of_mem hw
      exact h _ _ (.item hi hoffends)
    · exact absurd (.notList hlist) (h [] .notList)
  · rintro ⟨items, rfl, h⟩ path kind hoffends
    obtain ⟨i, w, rest, hw, -, hrest⟩ := offends_list.mp hoffends
    exact h w (List.mem_of_getElem? hw) rest kind hrest

theorem clean_record : (record rules).Clean v ↔ ∃ fields : Fields, v = .object fields ∧
    ∀ rule ∈ rules, if rule.required then fields.Has rule.name rule.form.Clean
      else fields.May rule.name rule.form.Clean := by
  constructor
  · intro h
    by_cases hobject : IsObject v
    · obtain ⟨fields, rfl⟩ := hobject
      refine ⟨fields, rfl, fun rule hrule => ?_⟩
      have hmay : fields.May rule.name rule.form.Clean :=
        fun w hw rest kind hoffends => h _ _ (.field hrule hw hoffends)
      split
      · rename_i hrequired
        cases hget : fields.get? rule.name with
        | none => exact absurd (.absent hrule hrequired hget) (h _ .missing)
        | some w => exact ⟨w, hget, hmay w hget⟩
      · exact hmay
    · exact absurd (.notRecord hobject) (h [] .notRecord)
  · rintro ⟨fields, rfl, h⟩ path kind hoffends
    obtain ⟨rule, hrule, ⟨hrequired, hnone, -, -⟩ | ⟨w, rest, hw, -, hrest⟩⟩ :=
      offends_object.mp hoffends
    · have hrule := h rule hrule
      rw [if_pos hrequired] at hrule
      obtain ⟨w, hw, -⟩ := hrule
      rw [hnone] at hw
      cases hw
    · have hrule := h rule hrule
      split at hrule
      · obtain ⟨u, hu, hclean⟩ := hrule
        obtain rfl : u = w := Option.some.inj (hu.symm.trans hw)
        exact hclean rest kind hrest
      · exact hrule w hw rest kind hrest

/-! ## The order of places -/

theorem Precedes.ne (h : form.Precedes path path') : path ≠ path' := by
  induction h with
  | declared _ hname =>
    intro heq
    exact hname (Step.field.inj (List.cons.inj heq).1)
  | index hlt =>
    intro heq
    exact absurd (Step.index.inj (List.cons.inj heq).1) (Nat.ne_of_lt hlt)
  | field _ _ ih => exact fun heq => ih (List.cons.inj heq).2
  | item _ ih => exact fun heq => ih (List.cons.inj heq).2

theorem Precedes.of_sublist (h : (record rules).Precedes path path') (hrules : rules.Sublist rules') :
    (record rules').Precedes path path' := by
  cases h with
  | declared hsublist hname => exact .declared (hsublist.trans hrules) hname
  | field hrule h => exact .field (hrules.subset hrule) h

/-! ## Differences that do not matter -/

theorem Alike.eq_of_single (h : (single unfit).Alike v v') : v = v' := by
  cases h
  rfl

theorem Alike.of_subset (h : (Form.record rules).Alike (.object fields) (.object fields'))
    (hrules : rules' ⊆ rules) : (Form.record rules').Alike (.object fields) (.object fields') := by
  cases h with
  | same => exact .same
  | record hnone h =>
    exact .record (fun rule hrule => hnone rule (hrules hrule)) fun rule hrule =>
      h rule (hrules hrule)

/-- A field that is not declared may be set at will. -/
theorem alike_set {key : String} (hkey : ∀ rule ∈ rules, rule.name ≠ key) (v : Value) :
    (record rules).Alike (.object fields) (.object (fields.set key v)) := by
  have hget : ∀ rule ∈ rules, (fields.set key v).get? rule.name = fields.get? rule.name :=
    fun rule hrule => by rw [Assoc.get?_set, if_neg (hkey rule hrule)]
  refine .record (fun rule hrule => by rw [hget rule hrule]) fun rule hrule w w' hw hw' => ?_
  rw [hget rule hrule, hw] at hw'
  rw [Option.some.inj hw']
  exact .same

end Form

/-! ## Outcomes that name their faults -/

namespace Checked

variable {α β γ : Type} {x : Checked α} {y : Checked β} {step : Step} {path : List Step}
  {kind : IssueKind}

/-- The outcome is no refusal without an issue. -/
def Honest (x : Checked α) : Prop :=
  x ≠ .rejected []

theorem honest_accepted (a : α) : (accepted a).Honest :=
  nofun

theorem honest_fail (kind : IssueKind) : (fail kind : Checked α).Honest :=
  nofun

theorem Honest.issues_eq_nil (h : x.Honest) : x.issues = [] ↔ ∃ a, x = .accepted a := by
  cases x with
  | accepted a => exact iff_of_true rfl ⟨a, rfl⟩
  | rejected is =>
    refine iff_of_false (fun hnil : is = [] => h (by rw [hnil])) ?_
    rintro ⟨a, ha⟩
    cases ha

theorem Honest.map (h : x.Honest) (f : α → β) : (x.map f).Honest := by
  cases x with
  | accepted a => exact honest_accepted _
  | rejected is =>
    intro hnil
    exact h (by rw [rejected.inj hnil])

theorem Honest.both (hx : x.Honest) (hy : y.Honest) : (x.both y).Honest := by
  intro hnil
  have hissues := issues_both x y
  rw [hnil] at hissues
  obtain ⟨hxnil, hynil⟩ := List.append_eq_nil_iff.mp hissues.symm
  obtain ⟨a, rfl⟩ := hx.issues_eq_nil.mp hxnil
  obtain ⟨b, rfl⟩ := hy.issues_eq_nil.mp hynil
  cases hnil

theorem Honest.under (h : x.Honest) (step : Step) : (x.under step).Honest := by
  cases x with
  | accepted a => exact honest_accepted _
  | rejected is =>
    intro hnil
    exact h (by rw [List.map_eq_nil_iff.mp (rejected.inj hnil)])

theorem issues_under (x : Checked α) (step : Step) :
    (x.under step).issues = x.issues.map fun i => { i with path := step :: i.path } := by
  cases x <;> rfl

theorem mem_issues_under : ⟨path, kind⟩ ∈ (x.under step).issues ↔
    ∃ rest, path = step :: rest ∧ ⟨rest, kind⟩ ∈ x.issues := by
  rw [issues_under, List.mem_map]
  constructor
  · rintro ⟨⟨rest, k⟩, hmem, heq⟩
    obtain ⟨rfl, rfl⟩ := Issue.mk.inj heq
    exact ⟨rest, rfl, hmem⟩
  · rintro ⟨rest, rfl, hmem⟩
    exact ⟨_, hmem, rfl⟩

theorem paths_under (x : Checked α) (step : Step) :
    (x.under step).issues.map Issue.path = (x.issues.map Issue.path).map (step :: ·) := by
  rw [issues_under, List.map_map, List.map_map]
  rfl

theorem mem_issues_fail {k : IssueKind} :
    ⟨path, kind⟩ ∈ (fail k : Checked α).issues ↔ path = [] ∧ kind = k := by
  unfold fail issues
  rw [List.mem_singleton, Issue.mk.injEq]

end Checked

/-! ## Checks governed by forms -/

namespace Form

open Check Checked

variable {α β : Type} {form item : Form} {rules rules' : List (FieldRule Form)}

/-- The check refuses just the values that offend, and its issues are the offences in the order of
their places; differences that do not matter to the form do not matter to the check. -/
structure Governs (form : Form) (check : Value → Checked α) : Prop where
  honest : ∀ v, (check v).Honest
  mem_issues : ∀ v path kind, ⟨path, kind⟩ ∈ (check v).issues ↔ form.Offends v path kind
  ordered : ∀ v, ((check v).issues.map Issue.path).Pairwise form.Precedes
  congr : ∀ v v', form.Alike v v' → check v = check v'

theorem Governs.accepts_iff {check : Value → Checked α} (h : form.Governs check) {v : Value} :
    (∃ a, check v = .accepted a) ↔ form.Clean v := by
  rw [← (h.honest v).issues_eq_nil, List.eq_nil_iff_forall_not_mem]
  constructor
  · exact fun hnone path kind hoffends => hnone _ ((h.mem_issues v path kind).mpr hoffends)
  · exact fun hclean ⟨path, kind⟩ hmem => hclean path kind ((h.mem_issues v path kind).mp hmem)

theorem Governs.nodup_paths {check : Value → Checked α} (h : form.Governs check) (v : Value) :
    ((check v).issues.map Issue.path).Nodup :=
  (h.ordered v).imp Precedes.ne

theorem governs_single {check : Value → Checked α} {fits : Value → Prop}
    {unfit : Value → IssueKind → Prop} (h : ∀ v, Decides check fits unfit v) :
    (single unfit).Governs check where
  honest v := by
    rcases h v with ⟨a, hcheck, -⟩ | ⟨kind, hcheck, -⟩
    · rw [hcheck]
      exact honest_accepted a
    · rw [hcheck]
      exact honest_fail kind
  mem_issues v path kind := by
    rw [offends_single]
    rcases h v with ⟨a, hcheck, -, hnone⟩ | ⟨k, hcheck, -, honly⟩
    · rw [hcheck]
      exact iff_of_false List.not_mem_nil fun hunfit => hnone kind hunfit.2
    · rw [hcheck, mem_issues_fail, honly]
  ordered v := by
    rcases h v with ⟨a, hcheck, -⟩ | ⟨kind, hcheck, -⟩
    · rw [hcheck]
      exact List.Pairwise.nil
    · rw [hcheck]
      exact List.pairwise_singleton _ _
  congr v v' halike := by rw [halike.eq_of_single]

/-! ### Lists -/

section

variable {check : Value → Checked α}

theorem honest_itemsFrom (h : item.Governs check) (i : Nat) (items : List Value) :
    (itemsFrom check i items).Honest := by
  induction items generalizing i with
  | nil => exact honest_accepted _
  | cons v items ih => exact (((h.honest v).under _).both (ih (i + 1))).map _

theorem issues_itemsFrom_cons (i : Nat) (v : Value) (items : List Value) :
    (itemsFrom check i (v :: items)).issues =
      ((check v).under (.index i)).issues ++ (itemsFrom check (i + 1) items).issues := by
  rw [itemsFrom, map₂, issues_map, issues_both]

theorem mem_issues_itemsFrom (h : item.Governs check) (i : Nat) (items : List Value)
    (path : List Step) (kind : IssueKind) :
    ⟨path, kind⟩ ∈ (itemsFrom check i items).issues ↔
      ∃ j v rest, items[j]? = some v ∧ path = .index (i + j) :: rest ∧ item.Offends v rest kind := by
  induction items generalizing i with
  | nil =>
    refine iff_of_false List.not_mem_nil ?_
    rintro ⟨j, v, rest, hv, -⟩
    cases hv
  | cons w items ih =>
    rw [issues_itemsFrom_cons, List.mem_append, mem_issues_under, ih]
    simp only [h.mem_issues]
    constructor
    · rintro (⟨rest, hpath, hoffends⟩ | ⟨j, v, rest, hv, hpath, hoffends⟩)
      · exact ⟨0, w, rest, rfl, hpath, hoffends⟩
      · exact ⟨j + 1, v, rest, hv, by rw [hpath, Nat.add_right_comm, Nat.add_assoc], hoffends⟩
    · rintro ⟨j, v, rest, hv, hpath, hoffends⟩
      cases j with
      | zero =>
        obtain rfl : w = v := Option.some.inj hv
        exact Or.inl ⟨rest, hpath, hoffends⟩
      | succ j =>
        exact Or.inr ⟨j, v, rest, hv, by rw [hpath, Nat.add_right_comm, Nat.add_assoc], hoffends⟩

theorem ordered_itemsFrom (h : item.Governs check) (i : Nat) (items : List Value) :
    ((itemsFrom check i items).issues.map Issue.path).Pairwise (list item).Precedes := by
  induction items generalizing i with
  | nil => exact List.Pairwise.nil
  | cons w items ih =>
    rw [issues_itemsFrom_cons, List.map_append, List.pairwise_append]
    refine ⟨?_, ih (i + 1), ?_⟩
    · rw [paths_under, List.pairwise_map]
      exact (h.ordered w).imp .item
    · simp only [List.mem_map]
      rintro _ ⟨⟨path, kind⟩, hmem, rfl⟩ _ ⟨⟨path', kind'⟩, hmem', rfl⟩
      obtain ⟨rest, rfl, -⟩ := mem_issues_under.mp hmem
      obtain ⟨j, v, rest', -, rfl, -⟩ := (mem_issues_itemsFrom h _ _ _ _).mp hmem'
      exact .index (by omega)

theorem itemsFrom_congr (i : Nat) {items items' : List Value} (hlength : items.length = items'.length)
    (h : ∀ (i : Nat) v v', items[i]? = some v → items'[i]? = some v' → check v = check v') :
    itemsFrom check i items = itemsFrom check i items' := by
  induction items generalizing i items' with
  | nil => rw [List.eq_nil_of_length_eq_zero hlength.symm]
  | cons v items ih =>
    cases items' with
    | nil => cases hlength
    | cons v' items' =>
      have hrest := ih (i + 1) (Nat.succ.inj hlength) fun j => h (j + 1)
      rw [itemsFrom, itemsFrom, h 0 v v' rfl rfl, hrest]

theorem Governs.listOf (h : item.Governs check) : (list item).Governs (listOf check) where
  honest v := by
    cases v with
    | list items => exact honest_itemsFrom h 0 items
    | _ => exact honest_fail _
  mem_issues v path kind := by
    cases v with
    | list items =>
      have hitems := mem_issues_itemsFrom h 0 items path kind
      simp only [Nat.zero_add] at hitems
      exact hitems.trans offends_list.symm
    | _ => exact mem_issues_fail.trans (offends_of_not_isList fun ⟨_, hv⟩ => nomatch hv).symm
  ordered v := by
    cases v with
    | list items => exact ordered_itemsFrom h 0 items
    | _ => exact List.pairwise_singleton _ _
  congr v v' halike := by
    cases halike with
    | same => rfl
    | list hlength halike =>
      exact itemsFrom_congr 0 hlength fun i w w' hw hw' => h.congr w w' (halike i w w' hw hw')

end

/-! ### Records -/

/-- What is not an object is refused as such, so a check of a record is a matter of its fields. -/
theorem governs_record {part : Fields → Checked α} (hhonest : ∀ fields, (part fields).Honest)
    (hmem : ∀ fields path kind, ⟨path, kind⟩ ∈ (part fields).issues ↔
      (record rules).Offends (.object fields) path kind)
    (hordered : ∀ fields, ((part fields).issues.map Issue.path).Pairwise (record rules).Precedes)
    (hcongr : ∀ fields fields', (record rules).Alike (.object fields) (.object fields') →
      part fields = part fields') :
    (record rules).Governs (Check.record part) where
  honest v := by
    cases v with
    | object fields => exact hhonest fields
    | _ => exact honest_fail _
  mem_issues v path kind := by
    cases v with
    | object fields => exact hmem fields path kind
    | _ => exact mem_issues_fail.trans (offends_of_not_isObject fun ⟨_, hv⟩ => nomatch hv).symm
  ordered v := by
    cases v with
    | object fields => exact hordered fields
    | _ => exact List.pairwise_singleton _ _
  congr v v' halike := by
    cases halike with
    | same => rfl
    | record hnone halike => exact hcongr _ _ (.record hnone halike)

section

variable {name : String} {must : Bool} {fields fields' : Fields} {check : Value → Checked α}
  {v : Value} {path : List Step} {kind : IssueKind}

theorem offends_of_get?_eq_some (hv : fields.get? name = some v) :
    (record [⟨name, must, form⟩]).Offends (.object fields) path kind ↔
      ∃ rest, path = .field name :: rest ∧ form.Offends v rest kind := by
  rw [offends_object]
  simp [hv]

theorem offends_of_get?_eq_none (hnone : fields.get? name = none) :
    (record [⟨name, must, form⟩]).Offends (.object fields) path kind ↔
      must = true ∧ path = [.field name] ∧ kind = .missing := by
  rw [offends_object]
  simp [hnone]

theorem get?_of_alike
    (h : (record [⟨name, must, form⟩]).Alike (.object fields) (.object fields')) :
    fields.get? name = none ∧ fields'.get? name = none ∨
      ∃ v v', fields.get? name = some v ∧ fields'.get? name = some v' ∧ form.Alike v v' := by
  have hmem : (⟨name, must, form⟩ : FieldRule Form) ∈ [(⟨name, must, form⟩ : FieldRule Form)] :=
    List.mem_cons_self
  cases hv : fields.get? name with
  | none =>
    refine Or.inl ⟨rfl, ?_⟩
    cases h with
    | same => exact hv
    | record hnone _ => exact (hnone _ hmem).mp hv
  | some v =>
    right
    cases h with
    | same => exact ⟨v, v, rfl, hv, .same⟩
    | record hnone h =>
      cases hv' : fields'.get? name with
      | none =>
        have hboth : fields.get? name = none := (hnone _ hmem).mpr hv'
        rw [hv] at hboth
        cases hboth
      | some v' => exact ⟨v, v', rfl, rfl, h _ hmem v v' hv hv'⟩

/-- A single field is governed by its rule when its absence is an issue just where it has to be
there. -/
theorem governs_field (h : form.Governs check) {absent : Checked α} (hhonest : absent.Honest)
    (habsent : absent.issues = if must then [⟨[.field name], .missing⟩] else []) :
    (record [⟨name, must, form⟩]).Governs (Check.record fun fields =>
      match fields.get? name with
      | some v => (check v).under (.field name)
      | none => absent) := by
  refine governs_record ?_ ?_ ?_ ?_
  · intro fields
    cases fields.get? name with
    | some v => exact (h.honest v).under _
    | none => exact hhonest
  · intro fields path kind
    cases hv : fields.get? name with
    | some v => simp only [offends_of_get?_eq_some hv, mem_issues_under, h.mem_issues]
    | none =>
      rw [offends_of_get?_eq_none hv, habsent]
      cases must <;> simp
  · intro fields
    cases fields.get? name with
    | some v =>
      rw [paths_under, List.pairwise_map]
      refine (h.ordered v).imp fun {path path'} hprecedes => ?_
      exact @Precedes.field _ ⟨name, must, form⟩ path path' List.mem_cons_self hprecedes
    | none =>
      rw [habsent]
      cases must
      · exact List.Pairwise.nil
      · exact List.pairwise_singleton _ _
  · intro fields fields' halike
    rcases get?_of_alike halike with ⟨hv, hv'⟩ | ⟨v, v', hv, hv', halike⟩
    · rw [hv, hv']
    · simp only [hv, hv', h.congr v v' halike]

theorem Governs.required (h : form.Governs check) (name : String) :
    (record [⟨name, true, form⟩]).Governs
      (Check.record fun fields => Check.required fields name check) := by
  have hsame : (fun fields => Check.required fields name check) = fun fields : Fields =>
      match fields.get? name with
      | some v => (check v).under (.field name)
      | none => (Checked.fail .missing).under (.field name) := by
    funext fields
    unfold Check.required
    cases fields.get? name <;> rfl
  rw [hsame]
  exact governs_field h ((honest_fail _).under _) rfl

theorem Governs.optional (h : form.Governs check) (name : String) (absent : α) :
    (record [⟨name, false, form⟩]).Governs
      (Check.record fun fields => Check.optional fields name absent check) :=
  governs_field h (honest_accepted absent) rfl

end

section

variable {x : Fields → Checked α} {y : Fields → Checked β}

/-- Fields that are checked one after the other are governed by their rules one after the other. -/
theorem Governs.both (hx : (record rules).Governs (Check.record x))
    (hy : (record rules').Governs (Check.record y))
    (hnames : ∀ r ∈ rules, ∀ r' ∈ rules', r.name ≠ r'.name) :
    (record (rules ++ rules')).Governs (Check.record fun fields => (x fields).both (y fields)) := by
  have hmemx : ∀ fields path kind, ⟨path, kind⟩ ∈ (x fields).issues ↔
      (record rules).Offends (.object fields) path kind := fun fields => hx.mem_issues (.object fields)
  have hmemy : ∀ fields path kind, ⟨path, kind⟩ ∈ (y fields).issues ↔
      (record rules').Offends (.object fields) path kind :=
    fun fields => hy.mem_issues (.object fields)
  refine governs_record ?_ ?_ ?_ ?_
  · exact fun fields => Honest.both (hx.honest (.object fields)) (hy.honest (.object fields))
  · intro fields path kind
    rw [issues_both, List.mem_append, hmemx, hmemy, offends_append]
  · intro fields
    rw [issues_both, List.map_append, List.pairwise_append]
    refine ⟨?_, ?_, ?_⟩
    · refine (hx.ordered (.object fields)).imp fun h => h.of_sublist ?_
      exact List.sublist_append_left rules rules'
    · refine (hy.ordered (.object fields)).imp fun h => h.of_sublist ?_
      exact List.sublist_append_right rules rules'
    · simp only [List.mem_map]
      rintro _ ⟨⟨path, kind⟩, hmem, rfl⟩ _ ⟨⟨path', kind'⟩, hmem', rfl⟩
      obtain ⟨r, hr, rest, rfl⟩ := exists_field_of_offends ((hmemx _ _ _).mp hmem)
      obtain ⟨r', hr', rest', rfl⟩ := exists_field_of_offends ((hmemy _ _ _).mp hmem')
      refine .declared ?_ (hnames r hr r' hr')
      exact (List.singleton_sublist.mpr hr).append (List.singleton_sublist.mpr hr')
  · intro fields fields' halike
    have hleft := hx.congr _ _ (halike.of_subset (List.subset_append_left rules rules'))
    have hright := hy.congr _ _ (halike.of_subset (List.subset_append_right rules rules'))
    exact congrArg₂ Checked.both hleft hright

theorem Governs.map (hx : (record rules).Governs (Check.record x)) (f : α → β) :
    (record rules).Governs (Check.record fun fields => (x fields).map f) := by
  refine governs_record ?_ ?_ ?_ ?_
  · exact fun fields => Honest.map (hx.honest (.object fields)) f
  · intro fields path kind
    rw [issues_map]
    exact hx.mem_issues (.object fields) path kind
  · intro fields
    rw [issues_map]
    exact hx.ordered (.object fields)
  · exact fun fields fields' halike => congrArg (Checked.map f) (hx.congr _ _ halike)

end

end Form

end CodeAtlas
