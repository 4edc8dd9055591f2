import CodeAtlas.Assoc

/-!
# Entries set one after the other

What an ordered map holds after entries were set in turn: each name once, and of several values of a
name the last.
-/

namespace CodeAtlas.Assoc

variable {β : Type} {m : Assoc β} {key : String} {b : β}

theorem mem_keys_set {other : String} :
    other ∈ (m.set key b).keys ↔ other = key ∨ other ∈ m.keys := by
  induction m with
  | nil => simp [set, keys]
  | cons e m ih =>
    obtain ⟨k, c⟩ := e
    by_cases h : k = key
    · subst h
      simp [set, keys]
    · have hk : (k == key) = false := by simpa using h
      simp only [set, hk, Bool.false_eq_true, if_false, keys, List.map_cons, List.mem_cons] at ih ⊢
      rw [ih, or_left_comm]

theorem nodup_keys_set (h : m.keys.Nodup) (key : String) (b : β) :
    (m.set key b).keys.Nodup := by
  induction m with
  | nil => simp [set, keys]
  | cons e m ih =>
    obtain ⟨k, c⟩ := e
    obtain ⟨hnew, hrest⟩ := List.nodup_cons.mp h
    by_cases hk : k = key
    · subst hk
      simpa [set, keys] using h
    · have hbeq : (k == key) = false := by simpa using hk
      simp only [set, hbeq, Bool.false_eq_true, if_false]
      refine List.nodup_cons.mpr ⟨fun hmem => ?_, ih hrest⟩
      rcases mem_keys_set.mp hmem with rfl | hmem
      · exact hk rfl
      · exact hnew hmem

theorem eq_or_mem_of_mem_set {p : String × β} (h : p ∈ m.set key b) :
    p = (key, b) ∨ p ∈ m := by
  induction m with
  | nil => exact Or.inl (List.mem_singleton.mp h)
  | cons e m ih =>
    obtain ⟨k, c⟩ := e
    by_cases hk : k = key
    · subst hk
      simp only [set, beq_self_eq_true, if_true, List.mem_cons] at h ⊢
      exact h.imp_right Or.inr
    · have hbeq : (k == key) = false := by simpa using hk
      simp only [set, hbeq, Bool.false_eq_true, if_false, List.mem_cons] at h ⊢
      rcases h with h | h
      · exact Or.inr (Or.inl h)
      · exact (ih h).imp_right Or.inr

theorem mem_of_get? (h : m.get? key = some b) : (key, b) ∈ m := by
  induction m with
  | nil => cases h
  | cons e m ih =>
    obtain ⟨k, c⟩ := e
    rw [get?_cons] at h
    split at h
    · rename_i hk
      rw [hk, Option.some.inj h]
      exact List.mem_cons_self
    · exact List.mem_cons_of_mem _ (ih h)

theorem get?_eq_none : m.get? key = none ↔ key ∉ m.keys := by
  induction m with
  | nil => simp [keys]
  | cons e m ih =>
    obtain ⟨k, c⟩ := e
    rw [get?_cons]
    by_cases hk : key = k
    · simp [hk, keys]
    · rw [if_neg hk, ih]
      simp [hk, keys]

theorem get?_eq_some (h : m.keys.Nodup) : m.get? key = some b ↔ (key, b) ∈ m := by
  refine ⟨mem_of_get?, fun hmem => ?_⟩
  induction m with
  | nil => cases hmem
  | cons e m ih =>
    obtain ⟨hnew, hm⟩ := List.nodup_cons.mp h
    rw [get?_cons]
    rcases List.mem_cons.mp hmem with rfl | hmem
    · exact if_pos rfl
    · rw [if_neg, ih hm hmem]
      rintro rfl
      exact hnew (List.mem_map.mpr ⟨_, hmem, rfl⟩)

theorem mem_keys_ofEntries {entries : List (String × β)} :
    key ∈ (ofEntries entries).keys ↔ key ∈ keys entries := by
  have hfold : ∀ m : Assoc β, key ∈ (entries.foldl (fun m e => set m e.1 e.2) m).keys ↔
      key ∈ m.keys ∨ key ∈ keys entries := by
    induction entries with
    | nil => simp [keys]
    | cons e entries ih =>
      intro m
      rw [List.foldl_cons, ih, mem_keys_set]
      simp only [keys, List.map_cons, List.mem_cons]
      rw [or_assoc, or_left_comm]
  rw [ofEntries, hfold]
  simp [keys]

/-- What holds of no entries and stays true as each is set holds of all entries set in turn. -/
theorem ofEntries_induction {P : Assoc β → Prop} {entries : List (String × β)} (hnil : P [])
    (hset : ∀ m, ∀ e ∈ entries, P m → P (m.set e.1 e.2)) : P (ofEntries entries) := by
  have hfold : ∀ m, P m → P (entries.foldl (fun m e => set m e.1 e.2) m) := by
    induction entries with
    | nil => exact fun m hm => hm
    | cons e entries ih =>
      intro m hm
      refine ih (fun m e he => hset m e (List.mem_cons_of_mem _ he)) _ ?_
      exact hset m e List.mem_cons_self hm
  exact hfold [] hnil

theorem nodup_keys_ofEntries (entries : List (String × β)) : (ofEntries entries).keys.Nodup := by
  refine ofEntries_induction (P := fun m => m.keys.Nodup) List.nodup_nil ?_
  intro m e _ hm
  exact nodup_keys_set hm e.1 e.2

/-! ## Entries with distinct keys -/

theorem set_of_not_mem {m : Assoc β} {key : String} (h : key ∉ m.keys) (b : β) :
    m.set key b = m ++ [(key, b)] := by
  induction m with
  | nil => rfl
  | cons e m ih =>
    obtain ⟨k, c⟩ := e
    simp only [keys, List.map_cons, List.mem_cons, not_or] at h
    have hk : (k == key) = false := by simpa using Ne.symm h.1
    simp only [set, hk, Bool.false_eq_true, if_false, List.cons_append]
    rw [ih h.2]

theorem foldl_set_eq_append (m entries : Assoc β) (h : (m ++ entries).keys.Nodup) :
    entries.foldl (fun m e => set m e.1 e.2) m = m ++ entries := by
  induction entries generalizing m with
  | nil => simp
  | cons e entries ih =>
    have hnew : e.1 ∉ m.keys := by
      intro hmem
      simp only [keys, List.map_append, List.map_cons] at h
      exact (List.nodup_append.mp h).2.2 e.1 hmem e.1 List.mem_cons_self rfl
    rw [List.foldl_cons, set_of_not_mem hnew, ih _ (by simpa using h)]
    simp

/-- Entries with distinct keys are an object as they stand. -/
theorem ofEntries_eq_self {entries : Assoc β} (h : entries.keys.Nodup) :
    ofEntries entries = entries :=
  foldl_set_eq_append [] entries h

/-! ## The last entry of a name -/

variable {p : String → Bool}

/-- The value of the last entry whose name passes a test. -/
def last? (m : Assoc β) (p : String → Bool) : Option β :=
  (m.reverse.find? fun e => p e.1).map (·.2)

@[simp] theorem last?_nil : last? ([] : Assoc β) p = none := rfl

theorem last?_cons (k : String) (b : β) (m : Assoc β) (p : String → Bool) :
    last? ((k, b) :: m) p = (last? m p).or (if p k then some b else none) := by
  unfold last?
  rw [List.reverse_cons, List.find?_append, Option.map_or]
  congr 1
  cases hk : p k <;> simp [hk]

theorem last?_map (f : String → String) (m : Assoc β) :
    last? (m.map fun (k, b) => (f k, b)) p = last? m fun k => p (f k) := by
  induction m with
  | nil => rfl
  | cons e m ih => rw [List.map_cons, last?_cons, last?_cons, ih]

theorem last?_eq_none (h : ∀ k ∈ m.keys, p k = false) : last? m p = none := by
  induction m with
  | nil => rfl
  | cons e m ih =>
    obtain ⟨k, b⟩ := e
    obtain ⟨hk, hm⟩ := List.forall_mem_cons.mp h
    rw [last?_cons, ih hm, hk]
    rfl

/-- Where no name is repeated, the last entry of a name is the first. -/
theorem last?_beq (h : m.keys.Nodup) (key : String) : last? m (· == key) = m.get? key := by
  induction m with
  | nil => rfl
  | cons e m ih =>
    obtain ⟨k, b⟩ := e
    obtain ⟨hnew, hm⟩ := List.nodup_cons.mp h
    rw [last?_cons, get?_cons, ← ih hm]
    by_cases hk : key = k
    · subst hk
      rw [last?_eq_none, if_pos rfl, if_pos (beq_self_eq_true key)]
      · rfl
      · intro other hother
        exact beq_false_of_ne fun heq => hnew (heq ▸ hother)
    · rw [if_neg hk, if_neg (by simpa using Ne.symm hk), Option.or_none]

/-- Setting entries in turn, the last of a name counts. -/
theorem get?_foldl_set (entries m : Assoc β) (key : String) :
    (entries.foldl (fun m e => set m e.1 e.2) m).get? key =
      (entries.last? (· == key)).or (m.get? key) := by
  induction entries generalizing m with
  | nil => rfl
  | cons e entries ih =>
    obtain ⟨k, b⟩ := e
    rw [List.foldl_cons, ih, get?_set, last?_cons, Option.or_assoc]
    by_cases hk : k = key
    · subst hk
      simp
    · simp [hk, Ne.symm hk]

theorem get?_ofEntries (entries : List (String × β)) (key : String) :
    (ofEntries entries).get? key = last? entries (· == key) := by
  unfold ofEntries
  rw [get?_foldl_set, get?_nil, Option.or_none]

end CodeAtlas.Assoc
