import StakingElection.Election.Phragmen
import StakingElection.Proofs.Election.Rebalance

/-!
# Passes of balancing

A pass is a run of moves, and balancing a run of passes. What a move keeps, a pass keeps
(`pass_improved`), and so does balancing (`Graph.Sound.balance`): the winners and the ballots stay,
the graph stays sound, and the score does not get worse. More passes do not make it worse either
(`Graph.Sound.balanceFrom_add`).

Balancing without tolerance that ends before its last pass has come to rest
(`Graph.Sound.settled_of_balanceFrom`): every elector is settled, and further passes change nothing
(`Graph.Sound.balanceOnce_of_settled`).
-/

namespace StakingElection.Election

variable {n : Nat}

theorem Improved.cons {elected : List (Fin n)} {v v' : Elector n} {rest rest' : List (Elector n)}
    {backed between backed' : Tally n} (hv : Improved elected [v] [v'] backed between)
    (h : Improved elected rest rest' between backed') :
    Improved elected (v :: rest) (v' :: rest') backed backed' :=
  ⟨hv.toShifted.cons h.toShifted, Score.not_isBetterThan_trans hv.score h.score⟩

theorem pass_cons {elected : List (Fin n)} {tolerance : Int} {backed between : Tally n}
    {v v' : Elector n} {d : Int}
    (h : rebalance elected tolerance backed v = ⟨v', between, .ok d⟩) (largest : Int)
    (rest : List (Elector n)) :
    pass elected tolerance largest backed (v :: rest) =
      { pass elected tolerance (max largest d) between rest with
        electors := v' :: (pass elected tolerance (max largest d) between rest).electors } := by
  simp only [pass, h]

/-- A pass never fails and keeps what its moves keep. -/
theorem pass_improved {elected : List (Fin n)} (hnd : elected.Nodup) (tolerance : Int)
    {electors : List (Elector n)} {backed : Tally n} (largest : Int)
    (h : ∀ v ∈ electors, v.Honest elected) (hback : ∀ c, handed electors c ≤ backed.get c) :
    ∃ electors' backed' d,
      pass elected tolerance largest backed electors = ⟨electors', backed', .ok d⟩ ∧
        Improved elected electors electors' backed backed' := by
  induction electors generalizing backed largest with
  | nil =>
    exact ⟨[], backed, largest, rfl, .refl h backed⟩
  | cons v rest ih =>
    obtain ⟨v', between, d, hmove, hmoved⟩ := (h v List.mem_cons_self).improved hnd
      (fun c _ => weightOn_le_of_handed_le h hback c) tolerance
    obtain ⟨rest', backed', d', hpass, himproved⟩ := ih (max largest d)
      (List.forall_mem_cons.mp h).2 (hmoved.handed_le hback)
    refine ⟨v' :: rest', backed', d', ?_, hmoved.cons himproved⟩
    rw [pass_cons hmove, hpass]

/-- A pass that sees no difference meets settled electors only, and does nothing. -/
theorem pass_settled {elected : List (Fin n)} {tolerance : Int}
    {electors : List (Elector n)} {backed : Tally n} {largest d : Int}
    (h : ∀ v ∈ electors, v.Honest elected) (hnd : elected.Nodup)
    (hback : ∀ c, handed electors c ≤ backed.get c)
    (hd : (pass elected tolerance largest backed electors).difference = .ok d) (hzero : d ≤ 0) :
    largest ≤ d ∧ ∀ v ∈ electors, v.Settled elected backed := by
  induction electors generalizing backed largest with
  | nil => exact ⟨(Except.ok.inj hd).le, by simp⟩
  | cons v rest ih =>
    have hv := h v List.mem_cons_self
    have hle := fun c (_ : c ∈ v.choices elected) => weightOn_le_of_handed_le h hback c
    obtain ⟨v', between, e, hmove, hmoved⟩ := hv.improved hnd hle tolerance
    rw [pass_cons hmove] at hd
    obtain ⟨hlargest, hrest⟩ := ih (List.forall_mem_cons.mp h).2 (hmoved.handed_le hback) hd
    have hsee : (rebalance elected tolerance backed v).difference = .ok e := by rw [hmove]
    have hsettled : v.Settled elected backed :=
      hv.settled hle hsee ((le_max_right largest e).trans (hlargest.trans hzero))
    -- a settled elector does not move, so the others were settled before it as well
    have hstay := hsettled.rebalance_eq hv hle tolerance
    rw [hmove] at hstay
    obtain ⟨-, rfl, -⟩ := Move.mk.inj hstay
    exact ⟨(le_max_left largest e).trans hlargest, List.forall_mem_cons.mpr ⟨hsettled, hrest⟩⟩

theorem pass_eq_of_settled {elected : List (Fin n)} (tolerance : Int)
    {electors : List (Elector n)} {backed : Tally n} {largest : Int} (hlargest : 0 ≤ largest)
    (h : ∀ v ∈ electors, v.Honest elected) (hback : ∀ c, handed electors c ≤ backed.get c)
    (hs : ∀ v ∈ electors, v.Settled elected backed) :
    pass elected tolerance largest backed electors = ⟨electors, backed, .ok largest⟩ := by
  induction electors with
  | nil => rfl
  | cons v rest ih =>
    obtain ⟨hsettled, hrest⟩ := List.forall_mem_cons.mp hs
    have hv := h v List.mem_cons_self
    have hmove := hsettled.rebalance_eq hv
      (fun c _ => weightOn_le_of_handed_le h hback c) tolerance
    have hstay := (Improved.refl (List.forall_mem_singleton.mpr hv) backed).handed_le hback
    rw [pass_cons hmove, max_eq_left hlargest, ih (List.forall_mem_cons.mp h).2 hstay hrest]

/-! ## Graphs -/

namespace Graph

/-- What balancing keeps and what it improves. -/
structure Rebalanced (g h : Graph n) : Prop extends Follows g h where
  elected : h.elected = g.elected
  score : g.standing.isBetterThan h.standing = false

theorem Sound.rebalanced_refl {g : Graph n} (h : g.Sound) : Rebalanced g g :=
  ⟨h.follows_refl, rfl, Score.not_isBetterThan_refl _⟩

theorem Rebalanced.trans {g h k : Graph n} (hgh : Rebalanced g h) (hhk : Rebalanced h k) :
    Rebalanced g k :=
  ⟨hgh.toFollows.trans hhk.toFollows, hhk.elected.trans hgh.elected,
    Score.not_isBetterThan_trans hgh.score hhk.score⟩

namespace Sound

variable {g : Graph n}

theorem balanceOnce (h : g.Sound) (tolerance : Int) :
    ∃ g' d, g.balanceOnce tolerance = (g', .ok d) ∧ Rebalanced g g' := by
  obtain ⟨electors, backed, d, hpass, himproved⟩ :=
    pass_improved h.nodup tolerance 0 h.honest fun c => (h.backed c).ge
  refine ⟨{ g with electors, backed }, d, ?_,
    h.shifted h.nodup h.elected_listed himproved.toShifted, rfl, himproved.score⟩
  simp only [Graph.balanceOnce, hpass]

theorem balanceFrom (h : g.Sound) (tolerance : Int) (fuel made : Nat) :
    ∃ g' passes, g.balanceFrom tolerance fuel made = (g', .ok passes) ∧ Rebalanced g g' := by
  induction fuel generalizing g made with
  | zero => exact ⟨g, made, rfl, h.rebalanced_refl⟩
  | succ fuel ih =>
    obtain ⟨g', d, honce, hg'⟩ := h.balanceOnce tolerance
    simp only [Graph.balanceFrom, honce]
    split
    · exact ⟨g', made + 1, rfl, hg'⟩
    · obtain ⟨g'', passes, hfrom, hg''⟩ := ih hg'.sound (made + 1)
      exact ⟨g'', passes, hfrom, hg'.trans hg''⟩

/-- Balancing never fails, and keeps what its passes keep. -/
theorem balance (h : g.Sound) (config : BalancingConfig) :
    ∃ g' passes, g.balance config = (g', .ok passes) ∧ Rebalanced g g' :=
  h.balanceFrom config.tolerance config.iterations.toNat 0

theorem balanceIf (h : g.Sound) (balancing : Option BalancingConfig) :
    ∃ g', Election.balanceIf balancing g = .ok g' ∧ Rebalanced g g' := by
  cases balancing with
  | none => exact ⟨g, rfl, h.rebalanced_refl⟩
  | some config =>
    obtain ⟨g', passes, heq, hg'⟩ := h.balance config
    exact ⟨g', by simp only [Election.balanceIf, heq], hg'⟩

/-- More passes do not make the score worse. -/
theorem balanceFrom_add (h : g.Sound) (tolerance : Int) (fuel more made : Nat) :
    Rebalanced (g.balanceFrom tolerance fuel made).1
      (g.balanceFrom tolerance (fuel + more) made).1 := by
  induction fuel generalizing g made with
  | zero =>
    obtain ⟨g', passes, heq, hg'⟩ := h.balanceFrom tolerance (0 + more) made
    rw [heq]
    exact hg'
  | succ fuel ih =>
    obtain ⟨g', d, honce, hg'⟩ := h.balanceOnce tolerance
    rw [Nat.add_right_comm]
    simp only [Graph.balanceFrom, honce]
    split
    · exact hg'.sound.rebalanced_refl
    · exact ih hg'.sound (made + 1)

/-- Without tolerance, balancing that ends early leaves settled electors only. -/
theorem settled_of_balanceFrom (h : g.Sound) {fuel made passes : Nat} {g' : Graph n}
    (heq : g.balanceFrom 0 fuel made = (g', .ok passes)) (hearly : passes < made + fuel) :
    ∀ v ∈ g'.electors, v.Settled g'.elected g'.backed := by
  induction fuel generalizing g made with
  | zero =>
    have := Except.ok.inj (Prod.mk.inj heq).2
    omega
  | succ fuel ih =>
    obtain ⟨next, d, honce, hnext⟩ := h.balanceOnce 0
    simp only [Graph.balanceFrom, honce] at heq
    split at heq
    · next hzero =>
      obtain rfl := (Prod.mk.inj heq).1
      have hd : (pass g.elected 0 0 g.backed g.electors).difference = .ok d :=
        congrArg Prod.snd honce
      have hback : ∀ c, handed g.electors c ≤ g.backed.get c := fun c => (h.backed c).ge
      obtain ⟨-, hsettled⟩ := pass_settled h.honest h.nodup hback hd hzero
      have hpass := pass_eq_of_settled 0 le_rfl h.honest hback hsettled
      have hsame : g = next := by
        simp only [Graph.balanceOnce, hpass] at honce
        exact (Prod.mk.inj honce).1
      exact hsame ▸ hsettled
    · exact ih hnext.sound heq (by omega)

/-- Further passes over settled electors change nothing, whatever the tolerance. -/
theorem balanceOnce_of_settled (h : g.Sound) (hs : ∀ v ∈ g.electors, v.Settled g.elected g.backed)
    (tolerance : Int) : g.balanceOnce tolerance = (g, .ok 0) := by
  simp only [Graph.balanceOnce,
    pass_eq_of_settled tolerance le_rfl h.honest (fun c => (h.backed c).ge) hs]

end Sound

end Graph

end StakingElection.Election
