import CodeAtlas.Proofs.Search.CycleEnumeration

/-!
# Cycles up to rotation

With rotations left out, the report keeps a cycle unless its key is the key of one that is kept
already. The key is the rotation that starts at the least name, so for lists without repetition two
keys agree exactly when the lists are rotations of each other, and the report keeps the first member
of each rotation class.

Which member comes first is a matter of the order of the nodes, not of their names: the searches from
earlier nodes come first, and all rotations of a cycle are found. So a cycle is written from the
earliest of its nodes.
-/

namespace CodeAtlas

/-! ## First members of rotation classes -/

/-- Of each rotation class in a list of cycles the first member, in the order of the list. -/
def firstRotations : List (List String) → List (List String)
  | [] => []
  | c :: cs => c :: (firstRotations cs).filter fun d => ¬c ~r d

section FirstRotations

variable {cs : List (List String)} {c d : List String}

theorem firstRotations_sublist (cs : List (List String)) : (firstRotations cs).Sublist cs := by
  induction cs with
  | nil => exact List.Sublist.refl []
  | cons c cs ih => exact (List.filter_sublist.trans ih).cons_cons c

theorem pairwise_firstRotations (cs : List (List String)) :
    (firstRotations cs).Pairwise fun c d => ¬c ~r d := by
  induction cs with
  | nil => exact List.Pairwise.nil
  | cons c cs ih =>
    refine List.pairwise_cons.mpr ⟨fun d hd => ?_, ih.filter _⟩
    exact of_decide_eq_true (List.mem_filter.mp hd).2

theorem exists_mem_firstRotations (hc : c ∈ cs) : ∃ d ∈ firstRotations cs, d ~r c := by
  induction cs with
  | nil => exact absurd hc List.not_mem_nil
  | cons b cs ih =>
    by_cases hbc : b ~r c
    · exact ⟨b, List.mem_cons_self, hbc⟩
    · rcases List.mem_cons.mp hc with rfl | hc
      · exact absurd (List.IsRotated.refl c) hbc
      · obtain ⟨d, hd, hdc⟩ := ih hc
        have hbd : ¬b ~r d := fun hbd => hbc (hbd.trans hdc)
        exact ⟨d, List.mem_cons_of_mem b (List.mem_filter.mpr ⟨hd, decide_eq_true hbd⟩), hdc⟩

/-- A first member stands before all its rotations. -/
theorem rel_of_mem_firstRotations {P : List String → List String → Prop} (hcs : cs.Pairwise P)
    (hc : c ∈ firstRotations cs) (hd : d ∈ cs) (hcd : c ~r d) : c = d ∨ P c d := by
  induction cs with
  | nil => exact absurd hd List.not_mem_nil
  | cons b cs ih =>
    obtain ⟨hbefore, hcs⟩ := List.pairwise_cons.mp hcs
    rcases List.mem_cons.mp hc with rfl | hc
    · exact (List.mem_cons.mp hd).imp Eq.symm (hbefore d)
    · obtain ⟨hc, hbc⟩ := List.mem_filter.mp hc
      rcases List.mem_cons.mp hd with rfl | hd
      · exact absurd hcd.symm (of_decide_eq_true hbc)
      · exact ih hcs hc hd

end FirstRotations

/-! ## Keys -/

theorem least_eq_some {names : List String} {m : String} (h : least names = some m) :
    m ∈ names ∧ ∀ n ∈ names, ¬n < m := by
  induction names generalizing m with
  | nil => cases h
  | cons s rest ih =>
    unfold least at h
    split at h
    · rename_i hrest
      obtain rfl := Option.some.inj h
      rw [least_eq_none_iff.mp hrest]
      exact ⟨List.mem_cons_self, List.forall_mem_singleton.mpr (String.lt_irrefl s)⟩
    · rename_i t hrest
      obtain ⟨ht, hleast⟩ := ih hrest
      split at h
      · rename_i hlt
        obtain rfl := Option.some.inj h
        exact ⟨List.mem_cons_of_mem s ht, List.forall_mem_cons.mpr ⟨String.lt_asymm hlt, hleast⟩⟩
      · rename_i hnot
        obtain rfl := Option.some.inj h
        refine ⟨List.mem_cons_self, List.forall_mem_cons.mpr ⟨String.lt_irrefl s, fun n hn => ?_⟩⟩
        exact String.not_lt.mpr
          (String.le_trans (String.not_lt.mp hnot) (String.not_lt.mp (hleast n hn)))

/-- The least name depends only on which names there are. -/
theorem least_eq_of_mem_iff {names others : List String} (h : ∀ n, n ∈ names ↔ n ∈ others) :
    least names = least others := by
  cases hnames : least names with
  | none =>
    rw [least_eq_none_iff.mp hnames] at h
    have hnil : others = [] :=
      List.eq_nil_iff_forall_not_mem.mpr fun n hn => List.not_mem_nil ((h n).mpr hn)
    rw [hnil]
    rfl
  | some m =>
    obtain ⟨hm, hleast⟩ := least_eq_some hnames
    cases hothers : least others with
    | none =>
      rw [least_eq_none_iff.mp hothers] at h
      exact absurd ((h m).mp hm) List.not_mem_nil
    | some k =>
      obtain ⟨hk, hleast'⟩ := least_eq_some hothers
      have hmk := String.not_lt.mp (hleast k ((h k).mpr hk))
      have hkm := String.not_lt.mp (hleast' m ((h m).mp hm))
      rw [String.le_antisymm hmk hkm]

theorem rotationKey_isRotated (c : List String) : rotationKey c ~r c := by
  unfold rotationKey
  split
  · rename_i hleast
    rw [least_eq_none_iff.mp hleast]
  · rename_i pivot _
    have hrotated : c.dropWhile (· != pivot) ++ c.takeWhile (· != pivot) ~r
        c.takeWhile (· != pivot) ++ c.dropWhile (· != pivot) := List.isRotated_append
    rwa [List.takeWhile_append_dropWhile] at hrotated

/-- The key of a cycle starts at its least name. -/
theorem head?_rotationKey (c : List String) : (rotationKey c).head? = least c := by
  unfold rotationKey
  split
  · rename_i hleast
    exact hleast.symm
  · rename_i pivot hleast
    obtain ⟨front, rest, rfl, hfront⟩ := List.eq_append_cons_of_mem (least_eq_some hleast).1
    have hbefore : ∀ x ∈ front, (x != pivot) = true := by
      intro x hx
      rw [bne_iff_ne]
      rintro rfl
      exact hfront hx
    rw [hleast, List.dropWhile_append_of_pos hbefore]
    simp

/-- Of the rotations of a list without repetition, only one starts at a given item. -/
theorem eq_of_isRotated_of_head? {c d : List String} (hc : c.Nodup) (hcd : c ~r d)
    (hhead : c.head? = d.head?) : c = d := by
  obtain ⟨n, hn, rfl⟩ := List.isRotated_iff_mod.mp hcd
  rcases Nat.lt_or_eq_of_le hn with hlt | rfl
  · have hzero : 0 < c.length := Nat.zero_lt_of_lt hlt
    rw [List.head?_rotate hlt, List.head?_eq_getElem?] at hhead
    obtain rfl : 0 = n := (List.getElem?_inj hzero hc).mp hhead
    exact (List.rotate_zero c).symm
  · exact (List.rotate_length c).symm

/-- **Keys tell rotation classes apart.** Two lists, one of them without repetition, have the same
key exactly when they are rotations of each other. -/
theorem rotationKey_eq_iff {c d : List String} (hd : d.Nodup) :
    rotationKey c = rotationKey d ↔ c ~r d := by
  constructor
  · intro heq
    have hkey := (rotationKey_isRotated c).symm
    rw [heq] at hkey
    exact hkey.trans (rotationKey_isRotated d)
  · intro hcd
    have hkeys : rotationKey c ~r rotationKey d :=
      (rotationKey_isRotated c).trans (hcd.trans (rotationKey_isRotated d).symm)
    have hnodup : (rotationKey c).Nodup :=
      ((rotationKey_isRotated c).trans hcd).nodup_iff.mpr hd
    refine eq_of_isRotated_of_head? hnodup hkeys ?_
    rw [head?_rotationKey, head?_rotationKey]
    exact least_eq_of_mem_iff fun n => hcd.mem_iff

/-! ## Reports -/

namespace CycleReport

/-- A cycle is added unless a rotation of it is in the report. -/
theorem add_true {report : CycleReport} (hseen : report.seen = report.found.map rotationKey)
    {c : List String} (hc : c.Nodup) :
    report.add true c = if ∃ d ∈ report.found, d ~r c then report
      else { found := c :: report.found, seen := rotationKey c :: report.seen } := by
  have hiff : rotationKey c ∈ report.seen ↔ ∃ d ∈ report.found, d ~r c := by
    rw [hseen, List.mem_map]
    exact exists_congr fun d => and_congr_right fun _ => rotationKey_eq_iff hc
  unfold CycleReport.add
  by_cases hkept : ∃ d ∈ report.found, d ~r c
  · simp [hiff, hkept]
  · simp [hiff, hkept]

/-- A report that leaves rotations out keeps the first member of each class that it had no member
of before. -/
theorem found_foldl_add_true {report : CycleReport}
    (hseen : report.seen = report.found.map rotationKey) {cs : List (List String)}
    (hcs : ∀ c ∈ cs, c.Nodup) :
    (cs.foldl (fun report c => report.add true c) report).found.reverse =
      report.found.reverse ++
        (firstRotations cs).filter fun c => ¬∃ d ∈ report.found, d ~r c := by
  induction cs generalizing report with
  | nil => simp [firstRotations]
  | cons c cs ih =>
    obtain ⟨hc, hcs⟩ := List.forall_mem_cons.mp hcs
    rw [List.foldl_cons, add_true hseen hc]
    by_cases hkept : ∃ d ∈ report.found, d ~r c
    · -- what would be left out because of `c` is left out because of the member kept for it
      have hsame : ((firstRotations cs).filter fun d => ¬c ~r d).filter
          (fun d => ¬∃ b ∈ report.found, b ~r d) =
            (firstRotations cs).filter fun d => ¬∃ b ∈ report.found, b ~r d := by
        obtain ⟨b, hb, hbc⟩ := hkept
        rw [List.filter_filter]
        refine List.filter_congr fun d _ => ?_
        by_cases hcd : c ~r d
        · have hbd : ∃ b ∈ report.found, b ~r d := ⟨b, hb, hbc.trans hcd⟩
          simp [hbd]
        · simp [hcd]
      rw [if_pos hkept, ih hseen hcs, firstRotations,
        List.filter_cons_of_neg (by simpa using hkept), hsame]
    · have hsplit : ∀ d, (¬∃ b ∈ c :: report.found, b ~r d) ↔
          (¬∃ b ∈ report.found, b ~r d) ∧ ¬c ~r d := by
        intro d
        rw [List.exists_mem_cons_iff, not_or, and_comm]
      have hseen' : rotationKey c :: report.seen = (c :: report.found).map rotationKey := by
        rw [hseen, List.map_cons]
      rw [if_neg hkept, ih hseen' hcs, firstRotations,
        List.filter_cons_of_pos (by simpa using hkept), List.filter_filter, List.reverse_cons,
        List.append_assoc, List.singleton_append]
      simp only [hsplit, Bool.decide_and]

end CycleReport

/-! ## Cycles of a graph -/

namespace Graph

variable {g : Graph} {limit : Option Int} {c : List String}

namespace Consistent

variable (hg : g.Consistent)

include hg

theorem cyclesWithin_true (limit : Option Int) :
    g.cyclesWithin limit true = firstRotations (g.closedTrails limit) := by
  have hnodup : ∀ c ∈ g.closedTrails limit, c.Nodup := by
    intro c hc
    obtain ⟨home, hcycle, -⟩ := hg.mem_closedTrails_iff.mp hc
    exact hcycle.nodup
  rw [hg.cyclesWithin_eq, CycleReport.found_foldl_add_true rfl hnodup]
  simp

/-- With a cycle the searches come upon all its rotations. -/
theorem mem_closedTrails_of_isRotated {d : List String} (hc : c ∈ g.closedTrails limit)
    (hcd : c ~r d) : d ∈ g.closedTrails limit := by
  obtain ⟨home, hcycle, hlimit⟩ := hg.mem_closedTrails_iff.mp hc
  obtain ⟨start, hstart⟩ := hcycle.isRotated hcd
  rw [hcd.perm.length_eq] at hlimit
  exact hg.mem_closedTrails_iff.mpr ⟨start, hstart, hlimit⟩

/-- The first member of a rotation class starts at the earliest node: the rotation that starts at
another node is found by the search from there. -/
theorem earliest_of_mem_firstRotations (hc : c ∈ firstRotations (g.closedTrails limit)) :
    ∃ home ∈ c.head?, ∀ n ∈ c, g.nodeIds.idxOf home ≤ g.nodeIds.idxOf n := by
  have hmem := (firstRotations_sublist _).subset hc
  obtain ⟨home, hcycle, -⟩ := hg.mem_closedTrails_iff.mp hmem
  refine ⟨home, hcycle.head_eq, fun n hn => ?_⟩
  obtain ⟨front, rest, rfl⟩ := List.append_of_mem hn
  have hcd : front ++ n :: rest ~r (n :: rest) ++ front := List.isRotated_append
  rcases rel_of_mem_firstRotations (hg.pairwise_closedTrails limit) hc
    (hg.mem_closedTrails_of_isRotated hmem hcd) hcd with heq | ⟨a, b, ha, hb, hlt | ⟨rfl, -⟩⟩
  · have hhead := hcycle.head_eq
    rw [heq] at hhead
    obtain rfl : n = home := Option.some.inj hhead
    exact Nat.le_refl _
  · obtain rfl := Option.some.inj (hcycle.head_eq.symm.trans ha)
    obtain rfl : n = b := Option.some.inj hb
    exact Nat.le_of_lt hlt
  · obtain rfl := Option.some.inj (hcycle.head_eq.symm.trans ha)
    obtain rfl : n = home := Option.some.inj hb
    exact Nat.le_refl _

/-- Where one node is not too many, the searches come upon the simple cycles that are not too
long. -/
theorem mem_closedTrails_iff_length_le (hlimit : ∀ l ∈ limit, 1 ≤ l) :
    c ∈ g.closedTrails limit ↔
      (∃ home, IsCycle (g.Adjacent none) home c) ∧ ∀ l ∈ limit, (c.length : Int) ≤ l := by
  rw [hg.mem_closedTrails_iff, ← within_iff]
  constructor
  · rintro ⟨home, hcycle, hone | hwithin⟩
    · refine ⟨⟨home, hcycle⟩, within_iff.mpr fun l hl => ?_⟩
      rw [hone]
      exact hlimit l hl
    · exact ⟨⟨home, hcycle⟩, hwithin⟩
  · rintro ⟨⟨home, hcycle⟩, hwithin⟩
    exact ⟨home, hcycle, Or.inr hwithin⟩

end Consistent

/-- **Cycles up to rotation.** Under a positive limit or none, leaving rotations out of the cycles
of a reachable graph keeps the first member of each rotation class. So every simple cycle within the
limit has exactly one rotation in the list and the list has nothing else, no two of its members are
rotations of each other, and each is written from the earliest of its nodes. -/
theorem cycles_up_to_rotation (hg : g.Reachable) (maxLength : Option Int)
    (hlimit : ∀ l ∈ maxLength <|> g.config.analysis.cycleMaxLength, 1 ≤ l) :
    g.cycles maxLength (some true) = firstRotations (g.cycles maxLength (some false)) ∧
    (∀ home c, IsCycle (g.Adjacent none) home c →
      (∀ l ∈ maxLength <|> g.config.analysis.cycleMaxLength, (c.length : Int) ≤ l) →
      ∃! d, d ∈ g.cycles maxLength (some true) ∧ d ~r c) ∧
    (∀ c ∈ g.cycles maxLength (some true), (∃ home, IsCycle (g.Adjacent none) home c) ∧
      ∀ l ∈ maxLength <|> g.config.analysis.cycleMaxLength, (c.length : Int) ≤ l) ∧
    (g.cycles maxLength (some true)).Pairwise (fun c d => ¬c ~r d) ∧
    ∀ c ∈ g.cycles maxLength (some true), ∃ home ∈ c.head?, ∀ n ∈ c,
      g.nodeIds.idxOf home ≤ g.nodeIds.idxOf n := by
  have hc := hg.consistent
  have hall : g.cycles maxLength (some false) = g.closedTrails (g.cycleLimit maxLength) :=
    hc.cyclesWithin_false _
  have hfirst : g.cycles maxLength (some true) =
      firstRotations (g.closedTrails (g.cycleLimit maxLength)) := hc.cyclesWithin_true _
  have hpairwise := pairwise_firstRotations (g.closedTrails (g.cycleLimit maxLength))
  rw [hfirst, hall]
  refine ⟨rfl, fun home c hcycle hlength => ?_, fun c hmem => ?_, hpairwise,
    fun c hmem => hc.earliest_of_mem_firstRotations hmem⟩
  · have hmem : c ∈ g.closedTrails (g.cycleLimit maxLength) :=
      (hc.mem_closedTrails_iff_length_le hlimit).mpr ⟨⟨home, hcycle⟩, hlength⟩
    obtain ⟨d, hd, hdc⟩ := exists_mem_firstRotations hmem
    refine ⟨d, ⟨hd, hdc⟩, ?_⟩
    rintro e ⟨he, hec⟩
    by_contra hne
    have : Std.Symm (fun c d : List String => ¬c ~r d) := ⟨fun _ _ h hrot => h hrot.symm⟩
    exact hpairwise.forall he hd hne (hec.trans hdc.symm)
  · exact (hc.mem_closedTrails_iff_length_le hlimit).mp ((firstRotations_sublist _).subset hmem)

/-- Three nodes, each with an edge to both others, that were not added in the order of their
names. -/
def triangle : Graph :=
  (empty {} []).performAll
    ((["c", "a", "b"].map fun id => .createNode (.str "function") none { id := some id }) ++
      ([("c", "a"), ("a", "b"), ("b", "c"), ("c", "b"), ("b", "a"), ("a", "c")].map fun ends =>
        .createEdge ends.1 ends.2 (.str "calls") [] none))

theorem triangle_reachable : triangle.Reachable :=
  (Reachable.empty {} []).performAll _

/-- Both ways round the three nodes are kept, and each is written from `c`, its earliest node, though
its key starts at `a`. -/
theorem cycles_up_to_rotation_triangle :
    triangle.Reachable ∧ (∀ l ∈ some 3 <|> triangle.config.analysis.cycleMaxLength, 1 ≤ l) ∧
      triangle.cycles (some 3) (some true) =
        [["c", "a", "b"], ["c", "a"], ["c", "b"], ["c", "b", "a"], ["a", "b"]] ∧
      rotationKey ["c", "b", "a"] = ["a", "c", "b"] ∧
      (triangle.cycles (some 3) (some false)).length = 12 ∧
      ∃! d, d ∈ triangle.cycles (some 3) (some true) ∧ d ~r ["b", "a", "c"] := by
  have hlimit : ∀ l ∈ some 3 <|> triangle.config.analysis.cycleMaxLength, 1 ≤ l := by
    intro l hl
    obtain rfl := Option.some.inj hl
    decide
  have hcycles : triangle.cycles (some 3) (some true) =
      [["c", "a", "b"], ["c", "a"], ["c", "b"], ["c", "b", "a"], ["a", "b"]] := rfl
  obtain ⟨-, hunique, hsound, -⟩ := cycles_up_to_rotation triangle_reachable (some 3) hlimit
  obtain ⟨home, hcycle⟩ := (hsound ["c", "b", "a"] (by rw [hcycles]; simp)).1
  obtain ⟨start, hturned⟩ := hcycle.isRotated (⟨1, rfl⟩ : ["c", "b", "a"] ~r ["b", "a", "c"])
  refine ⟨triangle_reachable, hlimit, hcycles, rfl, rfl, hunique start ["b", "a", "c"] hturned ?_⟩
  intro l hl
  obtain rfl := Option.some.inj hl
  decide

end Graph

end CodeAtlas
