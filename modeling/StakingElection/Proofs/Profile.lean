import StakingElection.Proofs.Legible
import StakingElection.State.Export

/-!
# Profiles of states that are read

A state that is read from an export has one of the known profiles, which it also has by the name of
that profile, and amounts that are not negative can be shown with it
(`Profile.exists_formatBalance`).
-/

namespace StakingElection

namespace Profile

variable {chain : String} {p : Profile}

theorem mem_known (h : ofChain? chain = some p) : p ∈ known.map Prod.snd := by
  obtain ⟨l₁, l₂, hknown, -⟩ := List.lookup_eq_some_iff.mp h
  have hin : (Text.lower (Text.strip chain), p) ∈ known :=
    hknown ▸ List.mem_append_right _ List.mem_cons_self
  exact List.mem_map_of_mem hin

theorem ofChain?_name (h : ofChain? chain = some p) : ofChain? p.name = some p := by
  have hmem := mem_known h
  simp only [known, List.map_cons, List.map_nil, List.mem_cons, List.not_mem_nil, or_false] at hmem
  rcases hmem with rfl | rfl | rfl | rfl | rfl <;> cbv

/-- The numbers of a known profile. -/
theorem numbers_of_ofChain? (h : ofChain? chain = some p) :
    0 < p.decimals ∧ Short p.decimals ∧ Short p.maxElectableTargets := by
  have hall : ∀ p ∈ known.map Prod.snd, 0 < p.decimals ∧ p.decimals.natAbs < 10 ^ 18 ∧
      p.maxElectableTargets.natAbs < 10 ^ 18 := by decide
  obtain ⟨hpos, hdecimals, htargets⟩ := hall p (mem_known h)
  exact ⟨hpos, short_of_lt hdecimals, short_of_lt htargets⟩

/-- An amount that is not negative is at least its number of whole tokens. -/
theorem exists_formatBalance (h : ofChain? chain = some p) {amount : Int} (hnonneg : 0 ≤ amount)
    (hshort : Short amount) : ∃ text, p.formatBalance amount = .ok text := by
  obtain ⟨hpos, hdecimals, -⟩ := numbers_of_ofChain? h
  have hwhole : Short (amount.fdiv p.decimals) := by
    rw [Int.fdiv_eq_ediv_of_nonneg _ hpos.le]
    exact short_of_between short_zero hshort (Int.ediv_nonneg hnonneg hpos.le)
      (Int.ediv_le_self _ hnonneg)
  rw [formatBalance, if_neg hpos.ne', Text.hasText_iff.mpr hdecimals, Text.hasText_iff.mpr hwhole]
  exact ⟨_, rfl⟩

theorem ofChain?_of_ofValue {raw : Value} (h : ofValue raw = .ok p) :
    ofChain? p.name = some p := by
  obtain ⟨chain, -, h⟩ := bind_eq_ok_iff_exists.mp h
  split at h
  · next hchain =>
    obtain rfl := Except.ok.inj h
    exact ofChain?_name hchain
  · cases h

end Profile

theorem StakingState.ofChain?_profile {raw : Value} {s : StakingState} (h : ofValue raw = .ok s) :
    Profile.ofChain? s.profile.name = some s.profile := by
  simp only [ofValue, bind_eq_ok_iff_exists] at h
  -- the block number, the hash and the name of the chain are read first
  obtain ⟨_, -, _, -, _, -, profile, hprofile, h⟩ := h
  iterate 15 obtain ⟨_, -, h⟩ := h
  obtain rfl := Except.ok.inj h
  exact Profile.ofChain?_of_ofValue hprofile

end StakingElection
