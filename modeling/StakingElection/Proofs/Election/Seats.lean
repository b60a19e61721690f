import StakingElection.Proofs.Election.Ballot

/-!
# Who can be elected

A round elects the best of the candidates that are left (`Graph.firstBest?_spec`), among those with
any approval. There is one left exactly as long as not all of them are elected
(`Graph.length_lt_card_electable_iff`), so both kinds of election fill the seats as far as there
are such candidates. For stakes that are not negative, these are the targets that some voter with
stake names (`Graph.card_electable`).
-/

namespace StakingElection

/-- The targets of a snapshot that some voter with stake names. -/
def Snapshot.supportedTargets (s : Snapshot) : Finset String :=
  {t ∈ s.targets.toFinset | ∃ v ∈ s.voters, v.stake ≠ 0 ∧ t ∈ v.targets}

theorem Snapshot.card_supportedTargets_le (s : Snapshot) :
    s.supportedTargets.card ≤ s.targets.length :=
  (Finset.card_filter_le _ _).trans (List.toFinset_card_le _)

namespace Election.Graph

variable {n : Nat}

/-! ## The best of several -/

theorem firstBest?_append_singleton (better : Int → Int → Bool) (l : List (Fin n × Int))
    (s : Fin n × Int) :
    firstBest? better (l ++ [s]) =
      match firstBest? better l with
      | none => some s
      | some b => if better s.2 b.2 then some s else some b := by
  rw [firstBest?, List.foldl_append, List.foldl_cons, List.foldl_nil, ← firstBest?]
  cases firstBest? better l <;> rfl

theorem firstBest?_eq_none_iff {better : Int → Int → Bool} {l : List (Fin n × Int)} :
    firstBest? better l = none ↔ l = [] := by
  induction l using List.reverseRecOn with
  | nil => simp [firstBest?]
  | append_singleton l s _ =>
    rw [firstBest?_append_singleton]
    simp only [List.append_eq_nil_iff, List.cons_ne_self, and_false, iff_false]
    split
    · simp
    · split <;> simp

/-- Renaming the candidates and counting in another measure does not change who is best. -/
theorem firstBest?_map {m : Nat} (place : Fin m → Fin n) (measure : Int → Int)
    {better better' : Int → Int → Bool}
    (hbetter : ∀ a b, better (measure a) (measure b) = better' a b) (l : List (Fin m × Int)) :
    firstBest? better (l.map fun s => (place s.1, measure s.2)) =
      (firstBest? better' l).map fun s => (place s.1, measure s.2) := by
  induction l using List.reverseRecOn with
  | nil => rfl
  | append_singleton l s ih =>
    rw [List.map_append, List.map_singleton, firstBest?_append_singleton, ih,
      firstBest?_append_singleton]
    cases firstBest? better' l with
    | none => rfl
    | some b =>
      simp only [Option.map_some, hbetter]
      split
      · rfl
      · rfl

/-- The best one is one of them, and no one is better. -/
theorem firstBest?_spec {better : Int → Int → Bool}
    (hasymm : ∀ a b, better a b → better b a = false)
    (htrans : ∀ a b c, better a b = false → better b c = false → better a c = false)
    {l : List (Fin n × Int)} {b : Fin n × Int} (h : firstBest? better l = some b) :
    b ∈ l ∧ ∀ s ∈ l, better s.2 b.2 = false := by
  have hself : ∀ a, better a a = false := fun a =>
    Bool.eq_false_iff.mpr fun ha => by
      have hno := hasymm a a ha
      rw [ha] at hno
      cases hno
  induction l using List.reverseRecOn generalizing b with
  | nil => cases h
  | append_singleton l s ih =>
    rw [firstBest?_append_singleton] at h
    split at h
    · next hnone =>
      rw [firstBest?_eq_none_iff] at hnone
      obtain rfl := Option.some.inj h
      subst hnone
      simpa using hself s.2
    · next b' hb' =>
      obtain ⟨hmem, hbest⟩ := ih hb'
      split at h
      · next hbetter =>
        obtain rfl := Option.some.inj h
        refine ⟨by simp, fun a ha => ?_⟩
        rcases List.mem_append.mp ha with ha | ha
        · exact htrans a.2 b'.2 s.2 (hbest a ha) (hasymm _ _ hbetter)
        · rw [List.mem_singleton.mp ha]
          exact hself s.2
      · next hbetter =>
        obtain rfl := Option.some.inj h
        refine ⟨List.mem_append_left _ hmem, fun a ha => ?_⟩
        rcases List.mem_append.mp ha with ha | ha
        · exact hbest a ha
        · rw [List.mem_singleton.mp ha]
          simpa using hbetter

/-! ## Filling the seats -/

/-- The candidates that anyone with stake approves of. -/
def electable (g : Graph n) : Finset (Fin n) := {c | g.approval c ≠ 0}

@[simp]
theorem mem_electable {g : Graph n} {c : Fin n} : c ∈ g.electable ↔ g.approval c ≠ 0 := by
  simp [electable]

theorem electable_congr {g h : Graph n} (hb : g.ballots = h.ballots) :
    g.electable = h.electable := by
  ext c
  rw [mem_electable, mem_electable, approval_congr hb]

@[simp]
theorem mem_remaining {g : Graph n} {c : Fin n} : c ∈ g.remaining ↔ c ∉ g.elected := by
  simp [remaining]

theorem length_le_card_electable {g : Graph n} (hnd : g.elected.Nodup)
    (hel : ∀ c ∈ g.elected, g.approval c ≠ 0) : g.elected.length ≤ g.electable.card := by
  rw [← List.toFinset_card_of_nodup hnd]
  exact Finset.card_le_card fun c hc => mem_electable.mpr (hel c (List.mem_toFinset.mp hc))

/-- Someone can be elected as long as not everyone who can is. -/
theorem length_lt_card_electable_iff {g : Graph n} (hnd : g.elected.Nodup)
    (hel : ∀ c ∈ g.elected, g.approval c ≠ 0) :
    g.elected.length < g.electable.card ↔ ∃ c ∉ g.elected, g.approval c ≠ 0 := by
  have hsub : g.elected.toFinset ⊆ g.electable := fun c hc =>
    mem_electable.mpr (hel c (List.mem_toFinset.mp hc))
  rw [← List.toFinset_card_of_nodup hnd]
  constructor
  · intro hlt
    obtain ⟨c, hc, hno⟩ := Finset.exists_mem_notMem_of_card_lt_card hlt
    exact ⟨c, fun hin => hno (List.mem_toFinset.mpr hin), mem_electable.mp hc⟩
  · rintro ⟨c, hno, hc⟩
    refine Finset.card_lt_card (Finset.ssubset_iff_subset_ne.mpr ⟨hsub, fun heq => hno ?_⟩)
    exact List.mem_toFinset.mp (heq ▸ mem_electable.mpr hc)

/-- No candidate is left exactly when everyone who can be elected is. -/
theorem eq_nil_iff_length_eq {g : Graph n} (hnd : g.elected.Nodup)
    (hel : ∀ c ∈ g.elected, g.approval c ≠ 0) {left : List (Fin n)}
    (hleft : ∀ c, c ∈ left ↔ c ∉ g.elected ∧ g.approval c ≠ 0) :
    left = [] ↔ g.elected.length = g.electable.card := by
  have hle := length_le_card_electable hnd hel
  have hlt := length_lt_card_electable_iff hnd hel
  rw [List.eq_nil_iff_forall_not_mem]
  simp only [hleft]
  constructor
  · intro hnone
    refine le_antisymm hle (not_lt.mp fun hless => ?_)
    obtain ⟨c, hc⟩ := hlt.mp hless
    exact hnone c hc
  · intro heq c hc
    have := hlt.mpr ⟨c, hc⟩
    omega

/-- Approval comes from a voter with stake. -/
theorem approval_ofVoters_ne_zero_iff {names : Vector String n} {voters : List Voter}
    (hstake : ∀ v ∈ voters, 0 ≤ v.stake) {c : Fin n} :
    (ofVoters names voters).approval c ≠ 0 ↔
      Listed names c ∧ ∃ v ∈ voters, v.stake ≠ 0 ∧ names.get c ∈ v.targets := by
  rw [approval_eq]
  simp only [ofVoters, List.map_map, Function.comp_def]
  have hterm : ∀ v ∈ voters,
      0 ≤ if (electorOf names v).backs c then (electorOf names v).budget else 0 := by
    intro v hv
    split
    · exact hstake v hv
    · exact le_rfl
  constructor
  · intro hne
    by_contra hno
    refine hne (sum_map_eq_zero fun v hv => ?_)
    split
    · next hbacks =>
      by_contra hbudget
      obtain ⟨hlisted, hname⟩ := backs_electorOf.mp hbacks
      exact hno ⟨hlisted, v, hv, hbudget, hname⟩
    · rfl
  · rintro ⟨hlisted, v, hv, hne, hname⟩
    have hle := le_sum_map hterm hv
    rw [if_pos (backs_electorOf.mpr ⟨hlisted, hname⟩)] at hle
    have hpos : 0 < v.stake := lt_of_le_of_ne (hstake v hv) (Ne.symm hne)
    exact (hpos.trans_le hle).ne'

/-- The graph of a snapshot before the first round. -/
def ofSnapshot (s : Snapshot) : Graph s.targets.length :=
  ofVoters ⟨s.targets.toArray, List.size_toArray⟩ s.voters

/-- As many candidates can be elected as targets are named by voters with stake. -/
theorem card_electable (s : Snapshot) (hstake : ∀ v ∈ s.voters, 0 ≤ v.stake) :
    (ofSnapshot s).electable.card = s.supportedTargets.card := by
  unfold ofSnapshot
  generalize hn : (⟨s.targets.toArray, List.size_toArray⟩ : Vector String s.targets.length) = names
  have hget : ∀ c, names.get c = s.targets[c.val] := by
    intro c
    rw [← hn]
    rfl
  have himage : s.supportedTargets = (ofVoters names s.voters).electable.image names.get := by
    ext t
    simp only [Snapshot.supportedTargets, Finset.mem_filter, List.mem_toFinset, Finset.mem_image,
      mem_electable, approval_ofVoters_ne_zero_iff hstake]
    constructor
    · rintro ⟨ht, v, hv, hne, hname⟩
      obtain ⟨i, hi, rfl⟩ := List.getElem_of_mem ht
      obtain ⟨c, hc⟩ := exists_candidate? names ⟨i, hi⟩
      have hname' := get_of_candidate? hc
      rw [hget ⟨i, hi⟩] at hname'
      exact ⟨c, ⟨listed_of_candidate? hc, v, hv, hne, hname' ▸ hname⟩, hname'⟩
    · rintro ⟨c, ⟨-, v, hv, hne, hname⟩, rfl⟩
      refine ⟨?_, v, hv, hne, hname⟩
      rw [hget]
      exact List.getElem_mem _
  rw [himage, Finset.card_image_of_injOn]
  intro c hc d hd heq
  have hc' := (approval_ofVoters_ne_zero_iff hstake).mp (mem_electable.mp hc)
  have hd' := (approval_ofVoters_ne_zero_iff hstake).mp (mem_electable.mp hd)
  exact hc'.1.injective hd'.1 heq

end Election.Graph

end StakingElection
