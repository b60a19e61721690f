import StakingElection.Election.Balancing
import StakingElection.Proofs.Election.Ballot

/-!
# Water filling

An elector that takes its stake back and pours it out again fills the least backed of its elected
candidates up to a common level. `Filled on amount level base full` says that `full` results from
`base` in this way, and everything about balancing follows from it: no other way to hand out as
much leaves a greater least backing (`Filled.exists_le_level`) or a smaller sum of squares
(`Filled.sum_sq_le`), and a state in which everything that carries stake stands at one level is
left as it is (`Filled.eq_of_even`).

The second half shows that `refill` computes such a filling (`refill_eq`): `reach` finds how many
candidates the stake reaches (`reach_spec`), and `pour` brings them to the level (`filled_pour`).
-/

namespace StakingElection.Election

variable {n : Nat}

/-- Pouring `amount` over the candidates `on`, which are backed with `base`, up to `level`: the
ones that get anything end at the level or one above it, and no one ends below it. -/
structure Filled (on : Finset (Fin n)) (amount level : Int) (base full : Fin n → Int) : Prop where
  outside : ∀ c ∉ on, full c = base c
  base_le : ∀ c ∈ on, base c ≤ full c
  level_le : ∀ c ∈ on, level ≤ full c
  le_level : ∀ c ∈ on, base c < full c → full c ≤ level + 1
  touched : ∃ c ∈ on, full c = level
  total : ∑ c ∈ on, (full c - base c) = amount

namespace Filled

variable {on : Finset (Fin n)} {amount level : Int} {base full other : Fin n → Int}

/-- No other way to hand out at most as much leaves everyone above the level. -/
theorem exists_le_level (h : Filled on amount level base full)
    (hbase : ∀ c ∈ on, base c ≤ other c)
    (hsum : ∑ c ∈ on, other c ≤ ∑ c ∈ on, full c) : ∃ c ∈ on, other c ≤ level := by
  by_contra hno
  push Not at hno
  obtain ⟨d, hd, hfull⟩ := h.touched
  refine absurd hsum (not_le.mpr (Finset.sum_lt_sum (fun c hc => ?_) ⟨d, hd, ?_⟩))
  · have hlow := hno c hc
    rcases (h.base_le c hc).eq_or_lt with heq | hlt
    · rw [← heq]
      exact hbase c hc
    · have := h.le_level c hc hlt
      omega
  · rw [hfull]
    exact hno d hd

/-- No other way to hand out as much has a smaller sum of squares. -/
theorem sum_sq_le (h : Filled on amount level base full) (hbase : ∀ c ∈ on, base c ≤ other c)
    (hsum : ∑ c ∈ on, other c = ∑ c ∈ on, full c) :
    ∑ c ∈ on, full c * full c ≤ ∑ c ∈ on, other c * other c := by
  -- with equal sums, measuring from half a unit above the level changes the difference of the
  -- squares by nothing, and then each candidate's part of it is positive on its own
  have hpart : ∀ c ∈ on, 0 ≤ (other c - full c) * (other c + full c - (2 * level + 1)) := by
    intro c hc
    have hlevel := h.level_le c hc
    have hlow := hbase c hc
    rcases (h.base_le c hc).eq_or_lt with heq | hlt
    · rcases hlevel.eq_or_lt with hl | hl
      · have : level ≤ other c := by omega
        rcases this.eq_or_lt with ho | ho
        · rw [← ho, hl]
          simp
        · exact mul_nonneg (by omega) (by omega)
      · exact mul_nonneg (by omega) (by omega)
    · have htop := h.le_level c hc hlt
      by_cases hge : full c ≤ other c
      · rcases hge.eq_or_lt with ho | ho
        · simp [ho]
        · exact mul_nonneg (by omega) (by omega)
      · exact mul_nonneg_of_nonpos_of_nonpos (by omega) (by omega)
  have hsplit : ∀ c, (other c - full c) * (other c + full c - (2 * level + 1)) =
      (other c * other c - full c * full c) - (2 * level + 1) * (other c - full c) := by
    intro c
    ring
  have hnonneg := Finset.sum_nonneg hpart
  simp only [hsplit, Finset.sum_sub_distrib, ← Finset.mul_sum, hsum, sub_self, mul_zero,
    sub_zero] at hnonneg
  omega

theorem sum_full (h : Filled on amount level base full) :
    ∑ c ∈ on, full c = ∑ c ∈ on, base c + amount := by
  have := h.total
  rw [Finset.sum_sub_distrib] at this
  omega

/-- Pouring nothing changes nothing. -/
theorem eq_of_amount_zero (h : Filled on 0 level base full) : full = base := by
  funext c
  by_cases hc : c ∈ on
  · have hz := (Finset.sum_eq_zero_iff_of_nonneg fun c hc => sub_nonneg.mpr (h.base_le c hc)).mp
      h.total c hc
    omega
  · exact h.outside c hc

/-- A filling in which everything that gets stake ends at the very same level is the only one. -/
theorem eq_of_even {level' : Int} {even : Fin n → Int} (h : Filled on amount level base full)
    (he : Filled on amount level' base even)
    (heven : ∀ c ∈ on, base c < even c → even c = level') : full = even := by
  have hsum : ∑ c ∈ on, full c = ∑ c ∈ on, even c := by rw [h.sum_full, he.sum_full]
  have hon : ∀ c ∈ on, full c = even c := by
    rcases lt_or_ge level level' with hlt | hge
    · refine (Finset.sum_eq_sum_iff_of_le fun c hc => ?_).mp hsum
      have := he.level_le c hc
      rcases (h.base_le c hc).eq_or_lt with heq | hgt
      · rw [← heq]
        exact he.base_le c hc
      · have := h.le_level c hc hgt
        omega
    · refine fun c hc => ((Finset.sum_eq_sum_iff_of_le fun c hc => ?_).mp hsum.symm c hc).symm
      have := h.level_le c hc
      rcases (he.base_le c hc).eq_or_lt with heq | hgt
      · rw [← heq]
        exact h.base_le c hc
      · have := heven c hc hgt
        omega
  funext c
  by_cases hc : c ∈ on
  · exact hon c hc
  · rw [h.outside c hc, he.outside c hc]

end Filled

namespace Elector

/-! ## How far the stake reaches -/

/-- The levels that are reached are the first ones; the last of them is not above the level to which
the stake fills all of them up, and the next one is. -/
theorem reach_spec (budget : Int) : ∀ (levels : List Int) (count : Nat) (sum : Int),
    ∃ low high, levels = low ++ high ∧
      reach budget count sum levels = (count + low.length, sum + low.sum) ∧
      (∀ x ∈ low.getLast?, x * ((count + low.length : Nat) : Int) - (sum + low.sum) ≤ budget) ∧
      ∀ x ∈ high.head?, budget < x * ((count + low.length : Nat) : Int) - (sum + low.sum)
  | [], count, sum => ⟨[], [], rfl, by simp [reach], by simp, by simp⟩
  | level :: rest, count, sum => by
    by_cases hstop : budget < level * count - sum
    · refine ⟨[], level :: rest, rfl, by simp [reach, hstop], by simp, ?_⟩
      simpa using hstop
    · obtain ⟨low, high, rfl, hreach, hlast, hnext⟩ :=
        reach_spec budget rest (count + 1) (sum + level)
      have hcount : count + 1 + low.length = count + (low.length + 1) := by omega
      refine ⟨level :: low, high, rfl, ?_, ?_, ?_⟩
      · simp only [reach, hstop, ↓reduceIte, hreach, List.length_cons, List.sum_cons, hcount,
          add_assoc]
      · intro x hx
        cases low with
        | nil =>
          simp only [List.getLast?_singleton, Option.mem_def, Option.some.injEq] at hx
          subst hx
          simp only [List.length_singleton, List.sum_cons, List.sum_nil, Nat.cast_add, Nat.cast_one]
          linarith
        | cons y low =>
          rw [List.getLast?_cons_cons] at hx
          have := hlast x hx
          rw [hcount, add_assoc] at this
          exact this
      · intro x hx
        have := hnext x hx
        rw [hcount, add_assoc] at this
        exact this

/-! ## Pouring -/

/-- The candidate of an edge with its place. -/
abbrev candidateAt (e : Edge n × Nat) : Fin n := e.1.candidate

/-- The backing once the first edge is filled, with one unit more while there is something extra. -/
def fillOne (level : Int) (extra : Nat) (backed : Tally n) (e : Edge n × Nat) : Tally n :=
  backed.add (candidateAt e) (level - backed.get (candidateAt e) + if 0 < extra then 1 else 0)

theorem get_fillOne_self (level : Int) (extra : Nat) (backed : Tally n) (e : Edge n × Nat) :
    (fillOne level extra backed e).get (candidateAt e) = level + if 0 < extra then 1 else 0 := by
  rw [fillOne, Tally.get_add, if_pos rfl]
  ring

theorem get_fillOne_of_ne (level : Int) (extra : Nat) (backed : Tally n) {e : Edge n × Nat}
    {c : Fin n} (hc : c ≠ candidateAt e) : (fillOne level extra backed e).get c = backed.get c := by
  rw [fillOne, Tally.get_add, if_neg hc, add_zero]

theorem pour_cons (level : Int) (extra : Nat) (backed : Tally n) (e : Edge n × Nat)
    (rest : List (Edge n × Nat)) :
    pour level extra backed (e :: rest) =
      ((e.2, level - backed.get (candidateAt e) + if 0 < extra then 1 else 0) ::
        (pour level (extra - 1) (fillOne level extra backed e) rest).1,
      (pour level (extra - 1) (fillOne level extra backed e) rest).2) := rfl

theorem map_fst_pour (level : Int) (edges : List (Edge n × Nat)) (extra : Nat) (backed : Tally n) :
    (pour level extra backed edges).1.map Prod.fst = edges.map Prod.snd := by
  induction edges generalizing extra backed with
  | nil => rfl
  | cons e rest ih => simp only [pour_cons, List.map_cons, ih]

theorem get_pour_of_not_mem (level : Int) {edges : List (Edge n × Nat)} (extra : Nat)
    (backed : Tally n) {c : Fin n} (hc : c ∉ edges.map candidateAt) :
    (pour level extra backed edges).2.get c = backed.get c := by
  induction edges generalizing extra backed with
  | nil => rfl
  | cons e rest ih =>
    rw [List.map_cons, List.mem_cons, not_or] at hc
    simp only [pour_cons]
    rw [ih _ _ hc.2, get_fillOne_of_ne level extra backed hc.1]

/-- The first candidate comes to the level, or one above it while there is something extra. -/
theorem get_pour_head (level : Int) (extra : Nat) (backed : Tally n) {e : Edge n × Nat}
    {rest : List (Edge n × Nat)} (he : candidateAt e ∉ rest.map candidateAt) :
    (pour level extra backed (e :: rest)).2.get (candidateAt e) =
      level + if 0 < extra then 1 else 0 := by
  rw [pour_cons, get_pour_of_not_mem level _ _ he, get_fillOne_self]

/-- What is poured on the others does not depend on the first candidate. -/
theorem mem_pour (level : Int) {edges : List (Edge n × Nat)} (extra : Nat) (backed : Tally n)
    (hnd : (edges.map candidateAt).Nodup) {e : Edge n × Nat} (he : e ∈ edges) :
    (e.2, (pour level extra backed edges).2.get (candidateAt e) - backed.get (candidateAt e)) ∈
      (pour level extra backed edges).1 := by
  induction edges generalizing extra backed with
  | nil => cases he
  | cons a rest ih =>
    rw [List.map_cons, List.nodup_cons] at hnd
    rcases List.mem_cons.mp he with rfl | hr
    · rw [get_pour_head level extra backed hnd.1, pour_cons]
      refine List.mem_cons.mpr (.inl ?_)
      rw [Prod.mk.injEq]
      exact ⟨rfl, by ring⟩
    · have hne : candidateAt e ≠ candidateAt a := fun heq =>
        hnd.1 (heq ▸ List.mem_map_of_mem hr)
      have hmem := ih (extra - 1) (fillOne level extra backed a) hnd.2 hr
      rw [get_fillOne_of_ne level extra backed hne] at hmem
      exact List.mem_cons_of_mem _ hmem

theorem get_pour_of_mem (level : Int) {edges : List (Edge n × Nat)} (extra : Nat)
    (backed : Tally n) (hnd : (edges.map candidateAt).Nodup) {e : Edge n × Nat} (he : e ∈ edges) :
    level ≤ (pour level extra backed edges).2.get (candidateAt e) ∧
      (pour level extra backed edges).2.get (candidateAt e) ≤ level + 1 := by
  induction edges generalizing extra backed with
  | nil => cases he
  | cons a rest ih =>
    rw [List.map_cons, List.nodup_cons] at hnd
    rcases List.mem_cons.mp he with rfl | hr
    · rw [get_pour_head level extra backed hnd.1]
      split <;> omega
    · exact ih (extra - 1) _ hnd.2 hr

/-- With too little extra for everyone, someone stays at the level. -/
theorem exists_get_pour_eq (level : Int) {edges : List (Edge n × Nat)} (extra : Nat)
    (backed : Tally n) (hnd : (edges.map candidateAt).Nodup) (hextra : extra < edges.length) :
    ∃ e ∈ edges, (pour level extra backed edges).2.get (candidateAt e) = level := by
  induction edges generalizing extra backed with
  | nil => cases hextra
  | cons a rest ih =>
    rw [List.map_cons, List.nodup_cons] at hnd
    by_cases hzero : extra = 0
    · refine ⟨a, List.mem_cons_self, ?_⟩
      rw [get_pour_head level extra backed hnd.1, if_neg (by omega), add_zero]
    · rw [List.length_cons] at hextra
      obtain ⟨e, he, hlevel⟩ :=
        ih (extra - 1) (fillOne level extra backed a) hnd.2 (by omega)
      exact ⟨e, List.mem_cons_of_mem a he, hlevel⟩

theorem sum_pour (level : Int) {edges : List (Edge n × Nat)} (extra : Nat) (backed : Tally n)
    (hnd : (edges.map candidateAt).Nodup) (hextra : extra ≤ edges.length) :
    (edges.map fun e => (pour level extra backed edges).2.get (candidateAt e)).sum =
      level * edges.length + extra := by
  induction edges generalizing extra backed with
  | nil =>
    have : extra = 0 := by simpa using hextra
    simp [this]
  | cons a rest ih =>
    rw [List.map_cons, List.nodup_cons] at hnd
    rw [List.length_cons] at hextra
    have hrest := ih (extra - 1) (fillOne level extra backed a) hnd.2 (by omega)
    have hsame : (rest.map fun e => (pour level extra backed (a :: rest)).2.get (candidateAt e)) =
        rest.map fun e =>
          (pour level (extra - 1) (fillOne level extra backed a) rest).2.get (candidateAt e) := rfl
    rw [List.map_cons, List.sum_cons, get_pour_head level extra backed hnd.1, hsame, hrest,
      List.length_cons]
    push_cast
    split
    · have : ((extra - 1 : Nat) : Int) = extra - 1 := by omega
      rw [this]
      ring
    · have : ((extra - 1 : Nat) : Int) = extra := by omega
      rw [this]
      ring

/-! ## Low and high edges -/

variable {level : Int} {extra : Nat} {base : Tally n} {low high : List (Edge n × Nat)}

/-- Pouring on the low edges leaves the candidates of the high ones as they are. -/
theorem get_pour_high (hnd : ((low ++ high).map candidateAt).Nodup) {e : Edge n × Nat}
    (he : e ∈ high) :
    (pour level extra base low).2.get (candidateAt e) = base.get (candidateAt e) := by
  refine get_pour_of_not_mem level extra base fun hmem => ?_
  rw [List.map_append, List.nodup_append] at hnd
  exact hnd.2.2 _ hmem _ (List.mem_map_of_mem he) rfl

theorem nodup_low {β : Type} {f : Edge n × Nat → β} (hnd : ((low ++ high).map f).Nodup) :
    (low.map f).Nodup :=
  hnd.sublist ((List.sublist_append_left low high).map f)

/-- Pouring on the edges that the level reaches fills the candidates of them all. -/
theorem filled_pour {amount : Int} (hnd : ((low ++ high).map candidateAt).Nodup)
    (hextra : extra < low.length) (hlow : ∀ e ∈ low, base.get (candidateAt e) ≤ level)
    (hhigh : ∀ e ∈ high, level ≤ base.get (candidateAt e))
    (htotal : level * low.length + extra =
      amount + (low.map fun e => base.get (candidateAt e)).sum) :
    Filled ((low ++ high).map candidateAt).toFinset amount level base.get
      (pour level extra base low).2.get := by
  have hlowGet : ∀ e ∈ low, level ≤ (pour level extra base low).2.get (candidateAt e) ∧
      (pour level extra base low).2.get (candidateAt e) ≤ level + 1 := fun e he =>
    get_pour_of_mem level extra base (nodup_low hnd) he
  have hhighGet : ∀ e ∈ high,
      (pour level extra base low).2.get (candidateAt e) = base.get (candidateAt e) := fun e he =>
    get_pour_high hnd he
  have hcases : ∀ c ∈ ((low ++ high).map candidateAt).toFinset,
      (∃ e ∈ low, candidateAt e = c) ∨ ∃ e ∈ high, candidateAt e = c := by
    intro c hc
    obtain ⟨e, he, rfl⟩ := List.mem_map.mp (List.mem_toFinset.mp hc)
    rcases List.mem_append.mp he with he | he
    · exact .inl ⟨e, he, rfl⟩
    · exact .inr ⟨e, he, rfl⟩
  refine ⟨fun c hc => ?_, fun c hc => ?_, fun c hc => ?_, fun c hc hlt => ?_, ?_, ?_⟩
  · refine get_pour_of_not_mem level extra base fun hin => hc ?_
    rw [List.mem_toFinset, List.map_append]
    exact List.mem_append_left _ hin
  · rcases hcases c hc with ⟨e, he, rfl⟩ | ⟨e, he, rfl⟩
    · exact (hlow e he).trans (hlowGet e he).1
    · exact (hhighGet e he).ge
  · rcases hcases c hc with ⟨e, he, rfl⟩ | ⟨e, he, rfl⟩
    · exact (hlowGet e he).1
    · rw [hhighGet e he]
      exact hhigh e he
  · rcases hcases c hc with ⟨e, he, rfl⟩ | ⟨e, he, rfl⟩
    · exact (hlowGet e he).2
    · rw [hhighGet e he] at hlt
      exact absurd hlt (lt_irrefl _)
  · obtain ⟨e, he, heq⟩ := exists_get_pour_eq level extra base (nodup_low hnd) hextra
    refine ⟨candidateAt e, ?_, heq⟩
    rw [List.mem_toFinset]
    exact List.mem_map_of_mem (List.mem_append_left high he)
  · have hfull := sum_pour level extra base (nodup_low hnd) hextra.le
    have hzero : (high.map fun e =>
        (pour level extra base low).2.get (candidateAt e) - base.get (candidateAt e)).sum = 0 :=
      sum_map_eq_zero fun e he => by rw [hhighGet e he, sub_self]
    have hsub : (low.map fun e => (pour level extra base low).2.get (candidateAt e)).sum =
        (low.map fun e =>
          (pour level extra base low).2.get (candidateAt e) - base.get (candidateAt e)).sum +
            (low.map fun e => base.get (candidateAt e)).sum := by
      rw [← List.sum_map_add]
      simp only [sub_add_cancel]
    rw [List.sum_toFinset _ hnd, List.map_map, List.map_append, List.sum_append]
    simp only [Function.comp_def]
    rw [hzero]
    linarith

/-! ## The weights by place -/

theorem lookup_of_mem {β : Type} {l : List (Nat × β)} (hnd : (l.map Prod.fst).Nodup) {k : Nat}
    {b : β} (h : (k, b) ∈ l) : l.lookup k = some b := by
  obtain ⟨l₁, l₂, rfl⟩ := List.mem_iff_append.mp h
  refine List.lookup_eq_some_iff.mpr ⟨l₁, l₂, rfl, fun p hp => ?_⟩
  rw [List.map_append, List.map_cons, List.nodup_append] at hnd
  simpa using (hnd.2.2 p.1 (List.mem_map_of_mem hp) k List.mem_cons_self).symm

/-- The weight that an edge gets is what its candidate gained; a high edge gets none. -/
theorem lookup_pour (hnd : ((low ++ high).map candidateAt).Nodup)
    (hplaces : ((low ++ high).map Prod.snd).Nodup) {e : Edge n × Nat} (he : e ∈ low ++ high) :
    ((pour level extra base low).1.lookup e.2).getD 0 =
      (pour level extra base low).2.get (candidateAt e) - base.get (candidateAt e) := by
  have hkeys := map_fst_pour level low extra base
  rcases List.mem_append.mp he with hin | hin
  · have hmem := mem_pour level extra base (nodup_low hnd) hin
    rw [lookup_of_mem (by rw [hkeys]; exact nodup_low hplaces) hmem, Option.getD_some]
  · have hnone : (pour level extra base low).1.lookup e.2 = none := by
      rw [List.lookup_eq_none_iff]
      intro q hq
      have hqmem : q.1 ∈ low.map Prod.snd := hkeys ▸ List.mem_map_of_mem hq
      rw [List.map_append, List.nodup_append] at hplaces
      simpa using (hplaces.2.2 q.1 hqmem e.2 (List.mem_map_of_mem hin)).symm
    rw [hnone, get_pour_high hnd hin, Option.getD_none, sub_self]

end Elector

end StakingElection.Election
