import StakingElection.Proofs.Node.Acquisition

/-!
# Connecting to a node

Connecting comes down to the outcomes of its attempts, which are those of the replies in order
(`outcome`). An attempt that fails is closed, and if it was not the last one, there is a pause and
connecting goes on with the replies that are left (`run_connectFrom_of_fails`), so that after
several attempts it is known event by event what has happened at the endpoint
(`run_connectFrom_add`, `retriedEvents`). It ends with the first attempt that is answered, or with
the last one of the limit (`Retries.connect_attempts`).
-/

namespace StakingElection.Node

/-! ## Endpoints and attempts -/

/-- The reply to a request from now on, the next one first. -/
def Endpoint.replyAt (e : Endpoint) (i : Nat) : Reply := e.replies.getD i e.afterwards

/-- The endpoint once so many replies are gone and some more has happened. -/
def Endpoint.after (e : Endpoint) (asked : Nat) (events : List Event) : Endpoint :=
  { e with replies := e.replies.drop asked, events := e.events ++ events }

theorem Endpoint.next_eq (e : Endpoint) : e.next = e.replyAt 0 := by
  rw [next, replyAt, List.headD_eq_head?_getD, List.getD_eq_getElem?_getD,
    List.head?_eq_getElem?]

theorem Endpoint.replyAt_after (e : Endpoint) (asked : Nat) (events : List Event) (i : Nat) :
    (e.after asked events).replyAt i = e.replyAt (asked + i) := by
  simp only [replyAt, after, List.getD_eq_getElem?_getD, List.getElem?_drop]

theorem Endpoint.after_after (e : Endpoint) (asked more : Nat) (events others : List Event) :
    (e.after asked events).after more others = e.after (asked + more) (events ++ others) := by
  simp only [after, List.drop_drop, List.append_assoc]

theorem Endpoint.after_zero (e : Endpoint) : e.after 0 [] = e := by
  simp only [after, List.drop_zero, List.append_nil]

/-- Beyond its replies an endpoint always says the same. -/
theorem Endpoint.replyAt_of_le {e : Endpoint} {i : Nat} (h : e.replies.length ≤ i) :
    e.replyAt i = e.afterwards := by
  rw [replyAt, List.getD_eq_getElem?_getD, List.getElem?_eq_none h, Option.getD_none]

/-- What an attempt comes to, the next one first: what the reply to it gives, or that there was no
time for one. -/
def outcome (timed : Bool) (e : Endpoint) (i : Nat) : Except Failure Value :=
  if timed then resultOfReply "system_chain" (e.replyAt i) else .error .timeout

theorem outcome_after (timed : Bool) (e : Endpoint) (n : Nat) (events : List Event) (i : Nat) :
    outcome timed (e.after (n * timed.toNat) events) i = outcome timed e (n + i) := by
  cases timed with
  | false => rfl
  | true => simp only [outcome, Endpoint.replyAt_after, Bool.toNat_true, Nat.mul_one]

/-! ## One attempt -/

/-- What happens in an attempt that has time: a session is opened for the request. -/
def attemptEvents (uri : Value) (timed : Bool) : List Event :=
  if timed then [.opened, .sent uri (Link.payload 1 "system_chain" [])] else []

/-- What happens when a client is closed that has a session since its attempt. -/
def closingEvents (timed : Bool) : List Event := if timed then [.closed] else []

/-- The client of an attempt after it. -/
def usedClient (uri : Value) (timed : Bool) : Client :=
  if timed then ⟨uri, .owned, 2⟩ else Client.ofUri uri

variable {uri : Value} {timed : Bool} {e : Endpoint}

theorem run_discard_systemChain (l : Link) (j : Journal) :
    (discard systemChain : Task Link Unit).run l j =
      ⟨(resultOfReply "system_chain" l.endpoint.next).map fun _ => (),
        l.send "system_chain" [], j⟩ := by
  have hdiscard : (discard systemChain : Task Link Unit) = systemChain >>= fun _ => pure () := by
    rw [discard, LawfulFunctor.map_const]
    exact map_eq_pure_bind _ _
  have hrequest := run_request "system_chain" [] l j
  rw [hdiscard, systemChain, bind_assoc]
  cases hreply : resultOfReply "system_chain" l.endpoint.next with
  | ok v =>
    rw [hreply] at hrequest
    exact Task.run_bind_ok hrequest
  | error f =>
    rw [hreply] at hrequest
    exact Task.run_bind_error hrequest

/-- The first request of a client opens a session for itself. -/
theorem send_ofUri (uri : Value) (e : Endpoint) (method : String) (params : List Value) :
    Link.send ⟨e, Client.ofUri uri⟩ method params =
      ⟨e.after 1 [.opened, .sent uri (Link.payload 1 method params)], ⟨uri, .owned, 2⟩⟩ := by
  simp [Link.send, Link.openSession, Link.record, Client.ofUri, Endpoint.record, Endpoint.advance,
    Endpoint.after]

theorem run_attemptConnect (uri : Value) (timed : Bool) (e : Endpoint) (j : Journal) :
    (attemptConnect uri (.ok timed)).run e j =
      ⟨.ok ((outcome timed e 0).map fun _ => (), usedClient uri timed),
        e.after timed.toNat (attemptEvents uri timed), j⟩ := by
  cases timed with
  | false =>
    rw [attemptEvents, if_neg Bool.false_ne_true, Bool.toNat_false, Endpoint.after_zero]
    rfl
  | true =>
    have hask := run_discard_systemChain ⟨e, Client.ofUri uri⟩ j
    have hrun : (attemptConnect uri (.ok true)).run e j =
        ⟨.ok (((discard systemChain : Task Link Unit).run ⟨e, Client.ofUri uri⟩ j).result,
            ((discard systemChain : Task Link Unit).run ⟨e, Client.ofUri uri⟩ j).state.client),
          ((discard systemChain : Task Link Unit).run ⟨e, Client.ofUri uri⟩ j).state.endpoint,
          ((discard systemChain : Task Link Unit).run ⟨e, Client.ofUri uri⟩ j).journal⟩ := rfl
    rw [hrun, hask, Endpoint.next_eq, send_ofUri]
    rfl

theorem closeSession_usedClient (e : Endpoint) :
    (Link.closeSession ⟨e, usedClient uri timed⟩).endpoint = e.after 0 (closingEvents timed) := by
  cases timed with
  | false => exact e.after_zero.symm
  | true => rfl

/-! ## One attempt of several -/

/-- What happens in an attempt that fails: its client is closed. -/
def failedEvents (uri : Value) (timed : Bool) : List Event :=
  attemptEvents uri timed ++ closingEvents timed

theorem after_closing (e : Endpoint) (uri : Value) (timed : Bool) :
    (Link.closeSession ⟨e.after timed.toNat (attemptEvents uri timed),
      usedClient uri timed⟩).endpoint = e.after timed.toNat (failedEvents uri timed) := by
  rw [closeSession_usedClient, Endpoint.after_after, Nat.add_zero, failedEvents]

section attempts

variable {retry : Retry} {fuel attempt : Nat} {f : Failure}

/-- With an answer connecting is done, and the client is left as it is. -/
theorem run_connectFrom_of_ok (htime : retry.hasTime = .ok timed) {v : Value}
    (hanswer : outcome timed e 0 = .ok v) (j : Journal) :
    (connectFrom uri retry (fuel + 1) attempt).run e j =
      ⟨.ok (usedClient uri timed), e.after timed.toNat (attemptEvents uri timed), j⟩ := by
  have hattempt := run_attemptConnect uri timed e j
  rw [hanswer] at hattempt
  rw [connectFrom, htime, Task.run_bind_ok hattempt]
  rfl

/-- After an attempt that fails its client is closed. If it was the last one of the limit, the
failure is final; otherwise there is a pause and another attempt. -/
theorem run_connectFrom_of_fails (uri : Value) (fuel : Nat) (htime : retry.hasTime = .ok timed)
    (hpause : retry.pause = .ok ()) (hfails : outcome timed e 0 = .error f)
    (htransient : isTransient f = true) {last : Bool}
    (hreached : retry.limit.isReached attempt = .ok last) (j : Journal) :
    ∃ j', (connectFrom uri retry (fuel + 1) attempt).run e j =
      if last then
        ⟨.error (plain s!"could not connect to {uri.toText}: {f.message}"),
          e.after timed.toNat (failedEvents uri timed), j'⟩
      else
        (connectFrom uri retry fuel (attempt + 1)).run
          (e.after timed.toNat (failedEvents uri timed ++ [.paused])) j' := by
  have hattempt := run_attemptConnect uri timed e j
  rw [hfails] at hattempt
  rw [connectFrom, htime, Task.run_bind_ok hattempt]
  simp only [Except.map, htransient, Bool.not_true, Bool.false_eq_true, if_false]
  rw [Task.run_bind_modify, after_closing, hreached, Task.run_bind_ofExcept_ok]
  cases last with
  | true => exact ⟨_, rfl⟩
  | false =>
    simp only [Bool.false_eq_true, if_false]
    rw [Task.run_bind_log, hpause, Task.run_bind_ofExcept_ok, Task.run_bind_modify]
    have hpaused : (e.after timed.toNat (failedEvents uri timed)).record .paused =
        e.after timed.toNat (failedEvents uri timed ++ [.paused]) := by
      simp only [Endpoint.record, Endpoint.after, List.append_assoc]
    rw [hpaused]
    exact ⟨_, rfl⟩

/-! ## Several attempts -/

/-- What happens in attempts that fail and are followed by another one. -/
def retriedEvents (uri : Value) (timed : Bool) (n : Nat) : List Event :=
  (List.replicate n (failedEvents uri timed ++ [.paused])).flatten

theorem retriedEvents_succ (uri : Value) (timed : Bool) (n : Nat) :
    retriedEvents uri timed (n + 1) =
      retriedEvents uri timed n ++ (failedEvents uri timed ++ [.paused]) := by
  simp only [retriedEvents, List.replicate_succ', List.flatten_append, List.flatten_singleton]

/-- Attempts that fail below the limit lead to the attempt after them. -/
theorem run_connectFrom_add (uri : Value) (fuel : Nat) (htime : retry.hasTime = .ok timed)
    (hpause : retry.pause = .ok ()) {n : Nat}
    (hfails : ∀ i < n, ∃ f, outcome timed e i = .error f ∧ isTransient f = true)
    (hlimit : ∀ i < n, retry.limit.isReached (attempt + i) = .ok false) (j : Journal) :
    ∃ j', (connectFrom uri retry (n + fuel) attempt).run e j =
      (connectFrom uri retry fuel (attempt + n)).run
        (e.after (n * timed.toNat) (retriedEvents uri timed n)) j' := by
  induction n generalizing fuel with
  | zero =>
    rw [Nat.zero_mul, retriedEvents, List.replicate_zero, List.flatten_nil, Endpoint.after_zero,
      Nat.zero_add, Nat.add_zero]
    exact ⟨j, rfl⟩
  | succ n ih =>
    obtain ⟨j₁, hbefore⟩ := ih (fuel + 1) (fun i hi => hfails i (by omega))
      fun i hi => hlimit i (by omega)
    obtain ⟨f, hf, htransient⟩ := hfails n (by omega)
    have hnow := outcome_after timed e n (retriedEvents uri timed n) 0
    rw [Nat.add_zero, hf] at hnow
    obtain ⟨j₂, hstep⟩ := run_connectFrom_of_fails uri fuel htime hpause hnow
      htransient (hlimit n (by omega)) j₁
    rw [if_neg Bool.false_ne_true, Endpoint.after_after, ← retriedEvents_succ,
      ← Nat.succ_mul] at hstep
    refine ⟨j₂, ?_⟩
    rw [Nat.add_right_comm, Nat.add_assoc, hbefore, hstep]
    rfl

end attempts

/-! ## Connecting -/

theorem AttemptLimit.ofValue_int (m : Nat) :
    ofValue (.int m) = if m = 0 then endless else upTo m := by
  cases m with
  | zero => rfl
  | succ m => rfl

/-- The attempt with the number of the limit is the last one; there is none if that is zero. -/
theorem AttemptLimit.isReached_ofValue (m attempt : Nat) :
    (ofValue (.int m)).isReached attempt = .ok (decide (m ≠ 0 ∧ m ≤ attempt)) := by
  rw [ofValue_int]
  by_cases hm : m = 0 <;> simp [hm, isReached]

theorem AttemptLimit.count_ofValue (m : Nat) : (ofValue (.int m)).count = m := by
  rw [ofValue_int]
  by_cases hm : m = 0 <;> simp [hm, count]

/-- The first attempt that is answered, counted from zero. -/
structure FirstAnswered (timed : Bool) (e : Endpoint) (k : Nat) : Prop where
  answered : ∃ v, outcome timed e k = .ok v
  before : ∀ i < k, ∃ f, outcome timed e i = .error f

/-- Of so many attempts one is the first that is answered, or all fail. -/
theorem exists_firstAnswered_or (timed : Bool) (e : Endpoint) (m : Nat) :
    (∃ k < m, FirstAnswered timed e k) ∨ ∀ i < m, ∃ f, outcome timed e i = .error f := by
  induction m with
  | zero => exact .inr fun i hi => absurd hi (Nat.not_lt_zero i)
  | succ m ih =>
    rcases ih with ⟨k, hk, hfirst⟩ | hnone
    · exact .inl ⟨k, Nat.lt_succ_of_lt hk, hfirst⟩
    · cases hm : outcome timed e m with
      | ok v => exact .inl ⟨m, Nat.lt_succ_self m, ⟨v, hm⟩, hnone⟩
      | error f =>
        refine .inr fun i hi => ?_
        rcases Nat.lt_succ_iff_lt_or_eq.mp hi with hlt | rfl
        · exact hnone i hlt
        · exact ⟨f, hm⟩

/-- Without time nothing is answered, and an endpoint that fails as long as it has replies left
fails for ever. -/
theorem FirstAnswered.le_length {k : Nat} (h : FirstAnswered timed e k) :
    timed = true ∧ k ≤ e.replies.length := by
  obtain ⟨v, hv⟩ := h.answered
  refine ⟨?_, Nat.le_of_not_lt fun hlong => ?_⟩
  · cases timed with
    | true => rfl
    | false => cases hv
  · obtain ⟨f, hf⟩ := h.before e.replies.length hlong
    have hsame : outcome timed e k = outcome timed e e.replies.length := by
      rw [outcome, outcome, Endpoint.replyAt_of_le (Nat.le_of_lt hlong),
        Endpoint.replyAt_of_le (Nat.le_refl _)]
    rw [hsame, hf] at hv
    cases hv

/-- Settings of use with a limit of so many attempts, none if that is zero, and an endpoint where
each of these attempts is answered or fails as one may that is made again. -/
structure Retries (retry : Retry) (m : Nat) (timed : Bool) (e : Endpoint) : Prop where
  limit : retry.limit = .ofValue (.int m)
  time : retry.hasTime = .ok timed
  pause : retry.pause = .ok ()
  transient : ∀ i, m = 0 ∨ i < m → ∀ f, outcome timed e i = .error f → isTransient f = true

namespace Retries

variable {retry : Retry} {m : Nat}

theorem isReached (h : Retries retry m timed e) (attempt : Nat) :
    retry.limit.isReached attempt = .ok (decide (m ≠ 0 ∧ m ≤ attempt)) := by
  rw [h.limit, AttemptLimit.isReached_ofValue]

/-- Connecting allows for as many attempts as it may have to make. -/
theorem run_connect (uri : Value) (h : Retries retry m timed e) {k : Nat}
    (hk : k ≤ e.replies.length ∨ k < m) (j : Journal) :
    ∃ fuel, (connect uri retry).run e j = (connectFrom uri retry (k + (fuel + 1)) 1).run e j := by
  have hcount : retry.limit.count = m := by rw [h.limit, AttemptLimit.count_ofValue]
  obtain ⟨fuel, hfuel⟩ : ∃ fuel, max (e.replies.length + 1) retry.limit.count = k + (fuel + 1) :=
    ⟨max (e.replies.length + 1) retry.limit.count - (k + 1), by omega⟩
  exact ⟨fuel, hfuel ▸ Task.run_bind_get⟩

/-- Attempts within the limit that fail are followed by another one. -/
theorem run_connectFrom (uri : Value) (h : Retries retry m timed e) {n : Nat}
    (hbelow : m = 0 ∨ n < m)
    (hfails : ∀ i < n, ∃ f, outcome timed e i = .error f) (fuel : Nat) (j : Journal) :
    ∃ j', (connectFrom uri retry (n + fuel) 1).run e j =
      (connectFrom uri retry fuel (1 + n)).run
        (e.after (n * timed.toNat) (retriedEvents uri timed n)) j' := by
  refine run_connectFrom_add uri fuel h.time h.pause (fun i hi => ?_) (fun i hi => ?_) j
  · obtain ⟨f, hf⟩ := hfails i hi
    exact ⟨f, hf, h.transient i (by omega) f hf⟩
  · rw [h.isReached, decide_eq_false]
    omega

/-- The first attempt that is answered is the last one. -/
theorem run_connect_of_answered (uri : Value) (h : Retries retry m timed e) {k : Nat}
    (hbelow : m = 0 ∨ k < m) (hfirst : FirstAnswered timed e k) (j : Journal) :
    ∃ j', (connect uri retry).run e j =
      ⟨.ok ⟨uri, .owned, 2⟩,
        e.after (k + 1) (retriedEvents uri timed k ++ attemptEvents uri timed), j'⟩ := by
  obtain ⟨rfl, hlength⟩ := hfirst.le_length
  obtain ⟨v, hv⟩ := hfirst.answered
  obtain ⟨fuel, hfuel⟩ := h.run_connect uri (.inl hlength) j
  obtain ⟨j', hbefore⟩ := h.run_connectFrom uri hbelow hfirst.before (fuel + 1) j
  have hnow := outcome_after true e k (retriedEvents uri true k) 0
  rw [Nat.add_zero, hv] at hnow
  refine ⟨j', ?_⟩
  rw [hfuel, hbefore, run_connectFrom_of_ok h.time hnow, Endpoint.after_after, Bool.toNat_true,
    Nat.mul_one]
  rfl

/-- If no attempt of the limit is answered, the failure of the last one is final. -/
theorem run_connect_of_fails (uri : Value) (h : Retries retry (m + 1) timed e)
    (hfails : ∀ i < m + 1, ∃ f, outcome timed e i = .error f) (j : Journal) :
    ∃ f j', outcome timed e m = .error f ∧ (connect uri retry).run e j =
      ⟨.error (plain s!"could not connect to {uri.toText}: {f.message}"),
        e.after ((m + 1) * timed.toNat) (retriedEvents uri timed m ++ failedEvents uri timed),
        j'⟩ := by
  have hlast := Nat.lt_succ_self m
  obtain ⟨fuel, hfuel⟩ := h.run_connect uri (.inr hlast) j
  obtain ⟨j₁, hbefore⟩ := h.run_connectFrom uri (.inr hlast)
    (fun i hi => hfails i (by omega)) (fuel + 1) j
  obtain ⟨f, hf⟩ := hfails m hlast
  have hnow := outcome_after timed e m (retriedEvents uri timed m) 0
  rw [Nat.add_zero, hf] at hnow
  have hreached : retry.limit.isReached (1 + m) = .ok true := by
    rw [h.isReached, decide_eq_true]
    omega
  obtain ⟨j₂, hfinal⟩ := run_connectFrom_of_fails uri fuel h.time h.pause hnow
    (h.transient m (.inr hlast) f hf) hreached j₁
  rw [if_pos rfl, Endpoint.after_after, ← Nat.succ_mul] at hfinal
  exact ⟨f, j₂, hf, by rw [hfuel, hbefore, hfinal]⟩

/-- There is a client exactly if an attempt of the limit is answered. -/
theorem exists_client_iff (uri : Value) (h : Retries retry m timed e) (hm : m ≠ 0) (j : Journal) :
    (∃ client, ((connect uri retry).run e j).result = .ok client) ↔
      ∃ i < m, ∃ v, outcome timed e i = .ok v := by
  rcases exists_firstAnswered_or timed e m with ⟨k, hk, hfirst⟩ | hnone
  · obtain ⟨j', hrun⟩ := h.run_connect_of_answered uri (.inr hk) hfirst j
    rw [hrun]
    exact ⟨fun _ => ⟨k, hk, hfirst.answered⟩, fun _ => ⟨_, rfl⟩⟩
  · obtain ⟨m, rfl⟩ := Nat.exists_eq_succ_of_ne_zero hm
    obtain ⟨f, j', -, hrun⟩ := h.run_connect_of_fails uri hnone j
    rw [hrun]
    refine ⟨fun ⟨_, hclient⟩ => (nomatch hclient), fun ⟨i, hi, v, hv⟩ => ?_⟩
    obtain ⟨f', hf'⟩ := hnone i hi
    rw [hf'] at hv
    cases hv

/-- With a limit, connecting makes one attempt after the other up to the first that is answered, and
then gives its client with the session open; if none of the limit is answered, it makes all of them
and fails. Every attempt that fails is closed before anything else happens, there is one pause
between two attempts, and none at the end. A limit of zero is none: attempts go on up to the first
that is answered, and however many fail, they are followed by another one. -/
theorem connect_attempts (uri : Value) (h : Retries retry m timed e) (j : Journal) :
    (∀ k, m = 0 ∨ k < m → FirstAnswered timed e k →
      ∃ j', (connect uri retry).run e j =
        ⟨.ok ⟨uri, .owned, 2⟩,
          e.after (k + 1) (retriedEvents uri timed k ++ attemptEvents uri timed), j'⟩) ∧
    (m ≠ 0 → (∀ i < m, ∃ f, outcome timed e i = .error f) →
      ∃ f j', outcome timed e (m - 1) = .error f ∧ (connect uri retry).run e j =
        ⟨.error (plain s!"could not connect to {uri.toText}: {f.message}"),
          e.after (m * timed.toNat) (retriedEvents uri timed (m - 1) ++ failedEvents uri timed),
          j'⟩) ∧
    (m ≠ 0 → ((∃ client, ((connect uri retry).run e j).result = .ok client) ↔
      ∃ i < m, ∃ v, outcome timed e i = .ok v)) ∧
    (m = 0 → ∀ n, (∀ i < n, ∃ f, outcome timed e i = .error f) → ∀ fuel,
      ∃ j', (connectFrom uri retry (n + fuel) 1).run e j =
        (connectFrom uri retry fuel (1 + n)).run
          (e.after (n * timed.toNat) (retriedEvents uri timed n)) j') := by
  refine ⟨fun k hk hfirst => h.run_connect_of_answered uri hk hfirst j, fun hm hnone => ?_,
    fun hm => h.exists_client_iff uri hm j,
    fun hm n hnone fuel => h.run_connectFrom uri (.inl hm) hnone fuel j⟩
  obtain ⟨m, rfl⟩ := Nat.exists_eq_succ_of_ne_zero hm
  exact h.run_connect_of_fails uri hnone j

/-- Of three attempts the first gets nothing in time and the second no connection; the last one of
the limit is answered. -/
theorem connect_attempts_of_third_answer :
    let retry : Retry := ⟨.ofValue (.int 3), .ok true, .ok ()⟩
    let answer : Reply := .answer 200 (.ok (.object [("result", .text "Polkadot")]))
    let e : Endpoint := .ofReplies [.silent, .disconnected "refused", answer] .silent
    let asked : Event := .sent (.text "n") (Link.payload 1 "system_chain" [])
    Retries retry 3 true e ∧ FirstAnswered true e 2 ∧
      ∃ j', (connect (.text "n") retry).run e #[] =
        ⟨.ok ⟨.text "n", .owned, 2⟩,
          ⟨[], .silent, [.opened, asked, .closed, .paused, .opened, asked, .closed, .paused,
            .opened, asked]⟩, j'⟩ := by
  intro retry answer e asked
  have hoften : Retries retry 3 true e := {
    limit := rfl
    time := rfl
    pause := rfl
    transient := by
      rintro (_ | _ | _ | i) hi f hf
      · exact Except.error.inj hf ▸ rfl
      · exact Except.error.inj hf ▸ rfl
      · cases hf
      · omega }
  have hfirst : FirstAnswered true e 2 := {
    answered := ⟨.text "Polkadot", rfl⟩
    before := by
      rintro (_ | _ | i) hi
      · exact ⟨_, rfl⟩
      · exact ⟨_, rfl⟩
      · omega }
  exact ⟨hoften, hfirst, (hoften.connect_attempts (.text "n") #[]).1 2 (.inr (by decide)) hfirst⟩

end Retries

end StakingElection.Node
