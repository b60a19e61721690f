import StakingElection.Node.Client
import StakingElection.Proofs.Journal

/-!
# How acquisition fails

A request that is answered gives the result in the answer, or fails as a request; only an answer
whose error is neither an object nor null is of a form that stops it (`Reply.OddError`,
`request_fails_iff`). An export of the right form is read, or it fails in its content, which counts
as a failed request too (`ExportForm`, `StakingState.failsOnly_ofValue`). So an export fails as an
analysis may if it is asked for and given in the right form (`exportState_fails_iff`,
`acquisition_fails_iff`).
-/

namespace StakingElection

/-! ## Ways to fail -/

/-- A computation that fails only in some ways. -/
def FailsOnly {ε α : Type} (P : ε → Prop) (x : Except ε α) : Prop := ∀ e, x = .error e → P e

namespace FailsOnly

variable {ε ε' α β : Type} {P : ε → Prop} {x : Except ε α}

theorem ok (a : α) : FailsOnly P (.ok a : Except ε α) := fun _ h => nomatch h

theorem error {e : ε} (he : P e) : FailsOnly P (.error e : Except ε α) :=
  fun _ h => Except.error.inj h ▸ he

theorem bind_ok {f : α → Except ε β} (hx : FailsOnly P x)
    (hf : ∀ a, x = .ok a → FailsOnly P (f a)) : FailsOnly P (x >>= f) := by
  cases x with
  | error e => exact error (hx e rfl)
  | ok a => exact hf a rfl

theorem bind {f : α → Except ε β} (hx : FailsOnly P x) (hf : ∀ a, FailsOnly P (f a)) :
    FailsOnly P (x >>= f) := hx.bind_ok fun a _ => hf a

theorem mapError {Q : ε' → Prop} {f : ε → ε'} (hx : FailsOnly P x) (hf : ∀ e, P e → Q (f e)) :
    FailsOnly Q (x.mapError f) := by
  cases x with
  | error e => exact error (hf e (hx e rfl))
  | ok a => exact ok a

theorem mapM {f : α → Except ε β} {l : List α} (h : ∀ a ∈ l, FailsOnly P (f a)) :
    FailsOnly P (l.mapM f) := by
  induction l with
  | nil => exact ok []
  | cons a l ih =>
    obtain ⟨ha, hl⟩ := List.forall_mem_cons.mp h
    rw [List.mapM_cons]
    exact ha.bind fun b => (ih hl).bind fun bs => ok (b :: bs)

end FailsOnly

/-! ## Exports of the right form -/

/-- Data that is no infinite number. -/
def Value.Finite (v : Value) : Prop := ∀ negative, v ≠ .float (.infinite negative)

/-- A ledger is an object, with no infinite amounts. -/
inductive Ledger.Form : Value → Prop
  | object {fs : List (String × Value)} (total : ∀ v, fs.lookup "total" = some v → v.Finite)
    (active : ∀ v, fs.lookup "active" = some v → v.Finite) : Form (.object fs)

/-- A voter has no infinite stake. -/
def Voter.Form (v : Value) : Prop :=
  ∀ id stake targets, v.threeParts = .ok (id, stake, targets) → stake.Finite

/-- A snapshot is an object, with voters of their form. -/
inductive Snapshot.Form : Value → Prop
  | object {fs : List (String × Value)}
    (voters : ∀ v, fs.lookup "voters" = some v → ∀ vs, v.items = .ok vs → ∀ w ∈ vs, Voter.Form w) :
    Form (.object fs)

/-- An election is not given, or an object. -/
inductive Slots.Form : Value → Prop
  | notGiven {v : Value} (h : v.isGiven = false) : Form v
  | object {fs : List (String × Value)}
    (snapshot : ∀ v, fs.lookup "snapshot" = some v → v = .null ∨ Snapshot.Form v)
    (seats : ∀ v, fs.lookup "desired_targets" = some v → v.Finite) : Form (.object fs)

/-- A map of an export is an object. -/
def MapForm (form : Value → Prop) (v : Value) : Prop := ∃ fs, v = .object fs ∧ ∀ e ∈ fs, form e.2

/-- The form of an export: what is taken apart by name is an object, the chain is a text, and where
an integer belongs there is no infinite number. Fields may be missing, and hold anything else. -/
structure ExportForm (fs : List (String × Value)) : Prop where
  blockNumber : ∀ v, fs.lookup "block_number" = some v → v.Finite
  chain : ∀ v, fs.lookup "chain" = some v → ∃ name, v = .text name
  validatorCount : ∀ v, fs.lookup "validator_count" = some v → v.Finite
  nominators : ∀ v, fs.lookup "nominators" = some v → MapForm (fun _ => True) v
  ledgers : ∀ v, fs.lookup "ledgers" = some v → MapForm Ledger.Form v
  bonded : ∀ v, fs.lookup "bonded" = some v → MapForm (fun _ => True) v
  payees : ∀ v, fs.lookup "payees" = some v → MapForm (fun _ => True) v
  election : ∀ v, fs.lookup "election" = some v → Slots.Form v

/-! ## Reading them -/

open Node (isMalformed)

/-- A reading that fails only in the content of what is read. -/
abbrev FailsInContent {α : Type} (x : Except DecodeFault α) : Prop :=
  FailsOnly (fun fault => isMalformed fault = true) x

namespace Value

theorem failsInContent_toInt {v : Value} (hv : v.Finite) : FailsInContent v.toInt := by
  cases v with
  | int i => exact .ok i
  | bool b => exact .ok _
  | float x =>
    rw [toInt]
    cases x with
    | finite negative mantissa exponent => exact .ok _
    | infinite negative => exact absurd rfl (hv negative)
    | nan => exact .error rfl
  | text s =>
    rw [toInt]
    cases Text.readInt s with
    | ok i => exact .ok i
    | error fault => cases fault <;> exact .error rfl
  | _ => exact .error rfl

theorem failsInContent_items (v : Value) : FailsInContent v.items := by
  cases v with
  | list vs => exact .ok vs
  | text s => exact .ok _
  | object fs => exact .ok _
  | _ => exact .error rfl

theorem failsInContent_toTexts (v : Value) : FailsInContent v.toTexts :=
  v.failsInContent_items.bind fun _ => .ok _

theorem failsInContent_threeParts (v : Value) : FailsInContent v.threeParts := by
  unfold threeParts
  split
  · exact .ok _
  · exact .error rfl
  · exact .error rfl

/-- To go on with a field, what goes on has to cope with the default and with what is given. -/
theorem failsOnly_fieldD {ε α : Type} {P : ε → Prop} {fs : List (String × Value)} {key : String}
    {default : Value} {g : DecodeFault → ε} {f : Value → Except ε α} {Q : Value → Prop}
    (hdefault : Q default) (hgiven : ∀ v, fs.lookup key = some v → Q v)
    (hf : ∀ v, Q v → FailsOnly P (f v)) :
    FailsOnly P (((Value.object fs).fieldD key default).mapError g >>= f) := by
  change FailsOnly P (f ((fs.lookup key).getD default))
  cases hlookup : fs.lookup key with
  | none => exact hf default hdefault
  | some v => exact hf v (hgiven v hlookup)

/-- The same in a reading. -/
theorem failsInContent_fieldD {α : Type} {fs : List (String × Value)} {key : String}
    {default : Value} {f : Value → Except DecodeFault α} {Q : Value → Prop} (hdefault : Q default)
    (hgiven : ∀ v, fs.lookup key = some v → Q v) (hf : ∀ v, Q v → FailsInContent (f v)) :
    FailsInContent ((Value.object fs).fieldD key default >>= f) :=
  failsOnly_fieldD (g := id) hdefault hgiven hf

theorem failsInContent_requiredField (fs : List (String × Value)) (key : String) :
    FailsInContent ((Value.object fs).requiredField key) := by
  refine .bind (.ok fs) fun fs => ?_
  cases fs.lookup key with
  | none => exact .error rfl
  | some v => exact .ok v

theorem lookup_of_requiredField {fs : List (String × Value)} {key : String} {v : Value}
    (h : (Value.object fs).requiredField key = .ok v) : fs.lookup key = some v := by
  obtain ⟨fs', hfs, h⟩ := bind_eq_ok_iff_exists.mp h
  obtain rfl := Except.ok.inj hfs
  split at h
  · next hlookup =>
    obtain rfl := Except.ok.inj h
    exact hlookup
  · cases h

end Value

theorem Ledger.failsInContent_ofValue {raw : Value} (h : Ledger.Form raw) :
    FailsInContent (Ledger.ofValue raw) := by
  obtain ⟨htotal, hactive⟩ := h
  refine Value.failsInContent_fieldD nofun htotal fun total hfinite => ?_
  refine (Value.failsInContent_toInt hfinite).bind fun total => ?_
  refine (Value.failsInContent_requiredField _ _).bind fun stash => ?_
  refine Value.failsInContent_fieldD nofun hactive fun active hfinite => ?_
  refine (Value.failsInContent_toInt hfinite).bind fun active => ?_
  exact .ok _

theorem Voter.failsInContent_ofValue {raw : Value} (h : Voter.Form raw) :
    FailsInContent (Voter.ofValue raw) := by
  refine raw.failsInContent_threeParts.bind_ok ?_
  rintro ⟨id, stake, targets⟩ hparts
  refine (Value.failsInContent_toInt (h _ _ _ hparts)).bind fun stake => ?_
  exact targets.failsInContent_toTexts.bind fun targets => .ok _

theorem Snapshot.failsInContent_ofValue {raw : Value} (h : Snapshot.Form raw) :
    FailsInContent (Snapshot.ofValue raw) := by
  obtain ⟨hvoters⟩ := h
  refine Value.failsInContent_fieldD ?_ hvoters fun voters hvoters => ?_
  · intro items hitems
    obtain rfl := Except.ok.inj hitems
    exact nofun
  · refine voters.failsInContent_items.bind_ok fun items hitems => ?_
    refine .bind (.mapM fun w hw => Voter.failsInContent_ofValue (hvoters items hitems w hw))
      fun voters => ?_
    refine .bind (.ok _) fun targets => ?_
    exact targets.failsInContent_toTexts.bind fun targets => .ok _

theorem Slots.failsInContent_ofValue {raw : Value} (h : Slots.Form raw) (validatorCount : Int) :
    FailsInContent (Slots.ofValue raw validatorCount) := by
  unfold ofValue
  cases h with
  | notGiven h =>
    rw [h]
    exact .ok _
  | @object fs hsnapshot hseats =>
    split
    · exact .ok _
    · refine Value.failsInContent_fieldD (.inl rfl) hsnapshot fun snapshot hform => ?_
      split
      · exact .ok _
      · next hgiven =>
        refine .bind (Snapshot.failsInContent_ofValue (hform.resolve_left ?_)) fun x => ?_
        · rintro rfl
          exact hgiven rfl
        · refine Value.failsInContent_fieldD nofun hseats fun seats hfinite => ?_
          split
          · exact .bind (.ok _) fun count => .ok _
          · exact (Value.failsInContent_toInt hfinite).bind fun count => .ok _

theorem failsInContent_readMap {α : Type} {f : Value → Except DecodeFault α} {form : Value → Prop}
    {raw : Value} (hf : ∀ v, form v → FailsInContent (f v)) (hraw : MapForm form raw) :
    FailsInContent (readMap f raw) := by
  obtain ⟨fs, rfl, hfs⟩ := hraw
  refine .bind_ok (.ok _) fun fs' hfields => ?_
  obtain rfl := Except.ok.inj hfields
  refine .bind (.mapM fun e he => ?_) fun entries => .ok _
  exact (hf e.2 (hfs e he)).bind fun a => .ok _

/-- How reading an export of the right form may fail. -/
def ExpectedOfExport (e : Failure) : Prop :=
  e.isAnalysis = true ∨ ∃ fault, e = .decode fault ∧ isMalformed fault = true

theorem FailsOnly.decode {α : Type} {x : Except DecodeFault α} (hx : FailsInContent x) :
    FailsOnly ExpectedOfExport (x.mapError .decode) :=
  hx.mapError fun fault hfault => .inr ⟨fault, rfl, hfault⟩

theorem Profile.failsOnly_ofValue {raw : Value} (h : ∃ name, raw = .text name) :
    FailsOnly ExpectedOfExport (Profile.ofValue raw) := by
  obtain ⟨name, rfl⟩ := h
  refine .bind_ok (.ok _) fun chain _ => ?_
  split
  · exact .ok _
  · exact .error (.inl rfl)

theorem StakingState.failsOnly_ofValue {fs : List (String × Value)} (h : ExportForm fs) :
    FailsOnly ExpectedOfExport (ofValue (.object fs)) := by
  have hempty (form : Value → Prop) : MapForm form (.object []) := ⟨[], rfl, List.forall_mem_nil _⟩
  have hnumber : FailsInContent (readBlockNumber (.object fs)) := by
    refine (Value.failsInContent_requiredField _ _).bind_ok fun v hread => ?_
    exact Value.failsInContent_toInt (h.blockNumber v (Value.lookup_of_requiredField hread))
  unfold ofValue
  refine .bind (.decode hnumber) fun blockNumber => ?_
  refine .bind (.ok _) fun blockHash => ?_
  refine Value.failsOnly_fieldD ⟨_, rfl⟩ h.chain fun chain hchain => ?_
  refine .bind (Profile.failsOnly_ofValue hchain) fun profile => ?_
  refine .bind (.ok _) fun activeEra => ?_
  refine Value.failsOnly_fieldD nofun h.validatorCount fun count hcount => ?_
  refine .bind (.decode (Value.failsInContent_toInt hcount)) fun validatorCount => ?_
  refine .bind (.ok _) fun validators => ?_
  refine .bind (.decode validators.failsInContent_toTexts) fun validators => ?_
  refine Value.failsOnly_fieldD (hempty _) h.nominators fun nominators hform => ?_
  refine .bind (.decode (failsInContent_readMap (fun v _ => v.failsInContent_toTexts) hform))
    fun nominators => ?_
  refine Value.failsOnly_fieldD (hempty _) h.ledgers fun ledgers hform => ?_
  refine .bind (.decode (failsInContent_readMap (fun _ => Ledger.failsInContent_ofValue) hform))
    fun ledgers => ?_
  refine Value.failsOnly_fieldD (hempty _) h.bonded fun bonded hform => ?_
  refine .bind (.decode (failsInContent_readMap (fun v _ => .ok _) hform)) fun bonded => ?_
  refine Value.failsOnly_fieldD (hempty _) h.payees fun payees hform => ?_
  refine .bind (.decode (failsInContent_readMap (fun v _ => .ok _) hform)) fun payees => ?_
  refine Value.failsOnly_fieldD (.notGiven rfl) h.election fun election hform => ?_
  refine .bind (.decode (Slots.failsInContent_ofValue hform validatorCount)) fun slots => ?_
  exact .ok _

/-! ## Replies -/

namespace Node

variable {l : Link} {j : Journal}

/-- A reply of a session that delivers a status with a body, or tells that it failed. -/
def Reply.Delivers : Reply → Prop
  | .answer _ body => ∃ v, body = .ok v
  | .disconnected _ => True
  | .silent => False

/-- An answer with an error that is neither an object nor null. -/
def Reply.OddError (r : Reply) : Prop :=
  ∃ fs e, r = .answer 200 (.ok (.object fs)) ∧ fs.lookup "error" = some e ∧ e ≠ .null ∧
    ∀ members, e ≠ .object members

/-- An answer with a result and without an error. -/
def Reply.Gives (r : Reply) (v : Value) : Prop :=
  ∃ fs, r = .answer 200 (.ok (.object fs)) ∧ (fs.lookup "error").getD .null = .null ∧
    fs.lookup "result" = some v

theorem resultOfReply_of_gives {r : Reply} {v : Value} (h : r.Gives v) (method : String) :
    resultOfReply method r = .ok v := by
  obtain ⟨fs, rfl, herror, hresult⟩ := h
  have hbody : resultOfReply method (.answer 200 (.ok (.object fs))) =
      resultOfBody method (.object fs) := rfl
  rw [hbody, resultOfBody, herror, hresult]

/-- An answer gives one result. -/
theorem Reply.Gives.unique {r : Reply} {v w : Value} (hv : r.Gives v) (hw : r.Gives w) : v = w :=
  Except.ok.inj <|
    (resultOfReply_of_gives hv exportMethod).symm.trans (resultOfReply_of_gives hw exportMethod)

theorem resultOfReply_of_oddError {r : Reply} (h : r.OddError) (method : String) :
    ∃ kind, resultOfReply method r = .error (.decode (.wrongKind kind)) := by
  obtain ⟨fs, e, rfl, hlookup, hnull, hobject⟩ := h
  have hbody : resultOfReply method (.answer 200 (.ok (.object fs))) =
      resultOfBody method (.object fs) := rfl
  rw [hbody, resultOfBody, hlookup, Option.getD_some]
  cases e with
  | null => exact absurd rfl hnull
  | object members => exact absurd rfl (hobject members)
  | _ => exact ⟨_, rfl⟩

/-- Any other reply that is delivered gives its result, or a failed request. -/
theorem resultOfReply_of_not_oddError {r : Reply} (h : r.Delivers) (hodd : ¬ r.OddError)
    (method : String) : (∃ v, r.Gives v ∧ resultOfReply method r = .ok v) ∨
      ∃ text code, resultOfReply method r = .error (.rpc text code) := by
  cases r with
  | disconnected text => exact .inr ⟨_, _, rfl⟩
  | silent => exact h.elim
  | answer status body =>
    obtain ⟨body, rfl⟩ := h
    by_cases hstatus : status = 200
    · subst hstatus
      have hbody : resultOfReply method (.answer 200 (.ok body)) = resultOfBody method body := rfl
      rw [hbody]
      cases body with
      | object fs =>
        rw [resultOfBody]
        cases herror : (fs.lookup "error").getD .null with
        | null =>
          cases hresult : fs.lookup "result" with
          | none => exact .inr ⟨_, _, rfl⟩
          | some v => exact .inl ⟨v, ⟨fs, rfl, herror, hresult⟩, rfl⟩
        | object members => exact .inr ⟨_, _, rfl⟩
        | _ =>
          -- only an error that is there is of another form
          refine absurd ⟨fs, (fs.lookup "error").getD .null, rfl, ?_, ?_, ?_⟩ hodd
          · cases hlookup : fs.lookup "error" with
            | none =>
              rw [hlookup] at herror
              cases herror
            | some e => rfl
          · rw [herror]
            exact nofun
          · rw [herror]
            exact nofun
      | _ => exact .inr ⟨_, _, rfl⟩
    · exact .inr ⟨_, _, if_pos hstatus⟩

theorem run_request (method : String) (params : List Value) (l : Link) (j : Journal) :
    (request method params).run l j =
      ⟨resultOfReply method l.endpoint.next, l.send method params, j⟩ := by
  rw [request, Task.run_bind_get, Task.run_bind_modify, Task.run_ofExcept]
  cases resultOfReply method l.endpoint.next <;> rfl

theorem result_request (method : String) (params : List Value) (l : Link) (j : Journal) :
    ((request method params).run l j).result = resultOfReply method l.endpoint.next :=
  congrArg Run.result (run_request method params l j)

/-! ## Exports -/

/-- An export with the hash of the block that it was asked for, unless it has one. -/
def withHash (hash : Value) (fs : List (String × Value)) : List (String × Value) :=
  if (fs.lookup "block_hash").isSome then fs else fs ++ [("block_hash", hash)]

theorem lookup_withHash (hash : Value) (fs : List (String × Value)) {key : String}
    (hkey : key ≠ "block_hash") : (withHash hash fs).lookup key = fs.lookup key := by
  unfold withHash
  split
  · rfl
  · rw [List.lookup_append]
    have hnone : List.lookup key [("block_hash", hash)] = none := by simp [hkey]
    rw [hnone, Option.or_none]

/-- The hash is no part of the form. -/
theorem exportForm_withHash {fs : List (String × Value)} (h : ExportForm fs) (hash : Value) :
    ExportForm (withHash hash fs) := by
  have hsame {key : String} {Q : Value → Prop} (hkey : key ≠ "block_hash")
      (hQ : ∀ v, fs.lookup key = some v → Q v) :
      ∀ v, (withHash hash fs).lookup key = some v → Q v := by
    rwa [lookup_withHash hash fs hkey]
  exact {
    blockNumber := hsame (by decide) h.blockNumber
    chain := hsame (by decide) h.chain
    validatorCount := hsame (by decide) h.validatorCount
    nominators := hsame (by decide) h.nominators
    ledgers := hsame (by decide) h.ledgers
    bonded := hsame (by decide) h.bonded
    payees := hsame (by decide) h.payees
    election := hsame (by decide) h.election }

theorem stateOfExport_of_ok {hash : Value} {fs : List (String × Value)} {s : StakingState}
    (h : StakingState.ofValue (.object (withHash hash fs)) = .ok s) :
    stateOfExport hash (.object fs) = .ok s := by
  unfold withHash at h
  simp only [stateOfExport, h]

theorem stateOfExport_of_malformed {hash : Value} {fs : List (String × Value)} {fault : DecodeFault}
    (h : StakingState.ofValue (.object (withHash hash fs)) = .error (.decode fault))
    (hfault : isMalformed fault = true) : ∃ text, stateOfExport hash (.object fs) =
      .error (plain text) := by
  unfold withHash at h
  simp only [stateOfExport, h, hfault]
  exact ⟨_, rfl⟩

theorem stateOfExport_of_error {hash : Value} {fs : List (String × Value)} {e : Failure}
    (h : StakingState.ofValue (.object (withHash hash fs)) = .error e)
    (he : ∀ fault, e = .decode fault → isMalformed fault = false) :
    stateOfExport hash (.object fs) = .error e := by
  unfold withHash at h
  cases e with
  | decode fault => simp [stateOfExport, h, he fault rfl]
  | _ => simp only [stateOfExport, h]

/-- An export is taken for a failed request if its content cannot be read, but not if that is its
form. -/
theorem isAnalysis_of_stateOfExport_iff (hash : Value) (fs : List (String × Value)) :
    (∀ e, stateOfExport hash (.object fs) = .error e → e.isAnalysis = true) ↔
      FailsOnly ExpectedOfExport (StakingState.ofValue (.object (withHash hash fs))) := by
  cases hread : StakingState.ofValue (.object (withHash hash fs)) with
  | ok s =>
    rw [stateOfExport_of_ok hread]
    exact ⟨fun _ => .ok s, fun _ => FailsOnly.ok s⟩
  | error e =>
    by_cases hfault : ∃ fault, e = .decode fault ∧ isMalformed fault = true
    · obtain ⟨fault, rfl, hfault⟩ := hfault
      obtain ⟨text, htext⟩ := stateOfExport_of_malformed hread hfault
      rw [htext]
      exact ⟨fun _ => .error (.inr ⟨fault, rfl, hfault⟩), fun _ => FailsOnly.error rfl⟩
    · rw [stateOfExport_of_error hread fun fault he =>
        Bool.eq_false_iff.mpr fun hmalformed => hfault ⟨fault, he, hmalformed⟩]
      constructor
      · exact fun h => .error (.inl (h e rfl))
      · exact fun h => FailsOnly.error ((h e rfl).resolve_right hfault)

theorem result_exportState (hash : Value) (l : Link) (j : Journal) :
    ((exportState hash).run l j).result =
      (resultOfReply exportMethod l.endpoint.next >>= stateOfExport hash) := by
  have hrequest := result_request exportMethod [hash] l j
  rcases hrun : (request exportMethod [hash]).run l j with ⟨r, l', j'⟩
  rw [hrun] at hrequest
  obtain rfl : r = _ := hrequest
  cases hreply : resultOfReply exportMethod l.endpoint.next with
  | error e =>
    rw [hreply] at hrun
    rw [exportState, Task.run_bind_error hrun]
    rfl
  | ok raw =>
    rw [hreply] at hrun
    rw [exportState, Task.run_bind_ok hrun, Task.run_ofExcept]
    change (stateOfExport hash raw).mapError id = stateOfExport hash raw
    cases stateOfExport hash raw <;> rfl

/-! ## All that may come of it -/

theorem request_fails_iff (hreply : l.endpoint.next.Delivers) (j : Journal) (method : String)
    (params : List Value) :
    ((∃ v, l.endpoint.next.Gives v ∧ ((request method params).run l j).result = .ok v) ∨
        ∃ text code, ((request method params).run l j).result = .error (.rpc text code)) ↔
      ¬ l.endpoint.next.OddError := by
  rw [result_request]
  constructor
  · intro h hodd
    obtain ⟨kind, hkind⟩ := resultOfReply_of_oddError hodd method
    rw [hkind] at h
    rcases h with ⟨v, -, h⟩ | ⟨text, code, h⟩ <;> cases h
  · exact fun hodd => resultOfReply_of_not_oddError hreply hodd method

theorem exportState_fails_iff (hreply : l.endpoint.next.Delivers) (j : Journal) (hash : Value) :
    (∀ e, ((exportState hash).run l j).result = .error e → e.isAnalysis = true) ↔
      ¬ l.endpoint.next.OddError ∧ ∀ fs, l.endpoint.next.Gives (.object fs) →
        FailsOnly ExpectedOfExport (StakingState.ofValue (.object (withHash hash fs))) := by
  rw [result_exportState]
  by_cases hodd : l.endpoint.next.OddError
  · obtain ⟨kind, hkind⟩ := resultOfReply_of_oddError hodd exportMethod
    rw [hkind]
    exact ⟨fun h => (nomatch h _ rfl), fun h => absurd hodd h.1⟩
  rcases resultOfReply_of_not_oddError hreply hodd exportMethod with
    ⟨raw, hgives, hresult⟩ | ⟨text, code, hresult⟩
  · rw [hresult]
    cases raw with
    | object fs =>
      refine (isAnalysis_of_stateOfExport_iff hash fs).trans ⟨fun h => ⟨hodd, ?_⟩, ?_⟩
      · intro fs' hgives'
        obtain rfl := Value.object.inj (hgives.unique hgives')
        exact h
      · exact fun h => h.2 fs hgives
    | _ =>
      -- what is no object is refused as a whole
      refine ⟨fun _ => ⟨hodd, fun fs hgives' => ?_⟩, fun _ => FailsOnly.error rfl⟩
      cases hgives.unique hgives'
  · rw [hresult]
    refine ⟨fun _ => ⟨hodd, fun fs hgives => ?_⟩, fun _ => FailsOnly.error rfl⟩
    rw [resultOfReply_of_gives hgives] at hresult
    cases hresult

/-- A request that a reply is delivered to gives the result in it or fails as a request, unless the
answer has an odd error. An export fails as an analysis may, unless the answer has an odd error, or
the form of what it gives cannot be read; what has the form of an export always can. -/
theorem acquisition_fails_iff (hreply : l.endpoint.next.Delivers) (j : Journal) :
    (∀ method params, ((∃ v, l.endpoint.next.Gives v ∧
        ((request method params).run l j).result = .ok v) ∨
          ∃ text code, ((request method params).run l j).result = .error (.rpc text code)) ↔
        ¬ l.endpoint.next.OddError) ∧
      ∀ hash, ((∀ e, ((exportState hash).run l j).result = .error e → e.isAnalysis = true) ↔
          ¬ l.endpoint.next.OddError ∧ ∀ fs, l.endpoint.next.Gives (.object fs) →
            FailsOnly ExpectedOfExport (StakingState.ofValue (.object (withHash hash fs)))) ∧
        ∀ fs, ExportForm fs →
          FailsOnly ExpectedOfExport (StakingState.ofValue (.object (withHash hash fs))) :=
  ⟨request_fails_iff hreply j, fun hash => ⟨exportState_fails_iff hreply j hash, fun _ hfs =>
    StakingState.failsOnly_ofValue (exportForm_withHash hfs hash)⟩⟩

/-- A link whose next answer has this body. -/
def answering (body : Value) : Link :=
  ⟨.ofReplies [.answer 200 (.ok body)] .silent, Client.ofUri .null⟩

/-- An export of what is not even a block number is a failed request. -/
theorem acquisition_fails_of_bad_number :
    let l := answering (.object [("result", .object [("block_number", .text "seven")])])
    l.endpoint.next.Delivers ∧
      (∃ v, ((request exportMethod [.null]).run l #[]).result = .ok v) ∧
      (∃ e, ((exportState .null).run l #[]).result = .error e) ∧
      ∀ e, ((exportState .null).run l #[]).result = .error e → e.isAnalysis = true := by
  intro l
  have hodd : ¬ l.endpoint.next.OddError := by
    rintro ⟨fs, e, hreply, herror, -⟩
    cases hreply
    cases herror
  have hform : ExportForm [("block_number", Value.text "seven")] := {
    blockNumber := by
      rintro v hv negative rfl
      cases hv
    chain := nofun
    validatorCount := nofun
    nominators := nofun
    ledgers := nofun
    bonded := nofun
    payees := nofun
    election := nofun }
  obtain ⟨hrequest, hexport⟩ := acquisition_fails_iff (l := l) ⟨_, rfl⟩ #[]
  refine ⟨⟨_, rfl⟩, ⟨_, rfl⟩, ⟨_, rfl⟩, (hexport .null).1.mpr ⟨hodd, fun fs hgives => ?_⟩⟩
  obtain ⟨fs', hreply, -, hresult⟩ := hgives
  cases hreply
  cases hresult
  exact (hexport .null).2 _ hform

/-- An error that is a text stops a request, and a chain that is null an export. -/
theorem not_acquisition_typed :
    (¬ ∀ (method : String) (params : List Value) (l : Link) (j : Journal),
        l.endpoint.next.Delivers → (∃ v, ((request method params).run l j).result = .ok v) ∨
          ∃ text code, ((request method params).run l j).result = .error (.rpc text code)) ∧
      ¬ ∀ (hash : Value) (l : Link) (j : Journal), l.endpoint.next.Delivers →
        ∀ e, ((exportState hash).run l j).result = .error e → e.isAnalysis = true := by
  constructor
  · intro htyped
    let busy := answering (.object [("error", .text "busy")])
    have hfault : ((request "system_chain" []).run busy #[]).result =
        .error (.decode (.wrongKind "str")) := rfl
    have htyped := htyped "system_chain" [] busy #[] ⟨_, rfl⟩
    rw [hfault] at htyped
    rcases htyped with ⟨v, h⟩ | ⟨text, code, h⟩ <;> cases h
  · intro htyped
    let unnamed := answering (.object [("result",
      .object [("block_number", .int 7), ("chain", .null)])])
    have hfault : ((exportState .null).run unnamed #[]).result =
        .error (.decode (.wrongKind "NoneType")) := rfl
    cases htyped .null unnamed #[] ⟨_, rfl⟩ _ hfault

end Node

end StakingElection
