import AccountSync.Device.Engine
import AccountSync.Proofs.Entries.Lattice
/-!
What each step of a copy does, said once. `Took` lists the five ways in which a copy takes a received
generation, with what holds in each; `Wrote` and `Confirmed` do the same for edits and for the swarm's
answer. What holds of a copy however it takes one payload holds after it has merged a whole batch
(`merge_induction`).
-/

namespace AccountSync

namespace Replica

variable {c : Cipher} {r : Replica}

/-- What a copy keeps for good: its topic, its secret and the limit on its messages. -/
def fixed (r : Replica) : Topic × Secret × Nat := (r.topic, r.secret, r.limit)

/-- What a copy reads in a payload depends on nothing else. -/
theorem read?_congr {r' : Replica} (h : r'.fixed = r.fixed) (payload : Bytes) :
    r'.read? c payload = r.read? c payload := by
  obtain ⟨htopic, hrest⟩ := Prod.ext_iff.1 h
  have hsecret : r'.secret = r.secret := (Prod.ext_iff.1 hrest).1
  have htopic : r'.topic = r.topic := htopic
  rw [read?, read?, hsecret, htopic]

/-! ### Phases -/

@[simp] theorem retireCurrent_phase (r : Replica) : r.retireCurrent.phase = r.phase := by
  unfold retireCurrent; split <;> rfl

@[simp] theorem retireCurrent_seq (r : Replica) : r.retireCurrent.seq = r.seq := by
  unfold retireCurrent; split <;> rfl

@[simp] theorem retireCurrent_entries (r : Replica) : r.retireCurrent.entries = r.entries := by
  unfold retireCurrent; split <;> rfl

@[simp] theorem retireCurrent_current (r : Replica) : r.retireCurrent.current = none := by
  unfold retireCurrent
  split
  · rfl
  · assumption

@[simp] theorem retireCurrent_fixed (r : Replica) : r.retireCurrent.fixed = r.fixed := by
  unfold retireCurrent; split <;> rfl

@[simp] theorem enter_phase (r : Replica) (p : Phase) : (r.enter p).phase = p := rfl

@[simp] theorem enter_unsaved (r : Replica) (p : Phase) : (r.enter p).unsaved = true := rfl

@[simp] theorem enter_seq (r : Replica) (p : Phase) : (r.enter p).seq = r.seq := by
  unfold enter; split <;> simp

@[simp] theorem enter_entries (r : Replica) (p : Phase) : (r.enter p).entries = r.entries := by
  unfold enter; split <;> simp

@[simp] theorem enter_fixed (r : Replica) (p : Phase) : (r.enter p).fixed = r.fixed := by
  unfold enter
  split
  · exact retireCurrent_fixed r
  · rfl

/-- A copy that leaves a phase has no current hash if only settled copies have one. -/
theorem enter_current (h : r.phase ≠ .settled → r.current = none) (p : Phase) :
    (r.enter p).current = none := by
  unfold enter
  split
  · exact retireCurrent_current r
  · rename_i hp
    exact h hp

/-! ### Edits -/

/-- How a write changes a copy: in the open generation of edits, or in a new one. -/
inductive Wrote (r : Replica) (key : String) (value : Option Bytes) : Replica → Prop where
  | within : r.phase = .edited →
      Wrote r key value { r with entries := r.entries.insert key ⟨value, r.seq⟩ }
  | opening (r' : Replica) : r.phase ≠ .edited → r'.phase = .edited → r'.unsaved = true →
      r'.seq = r.seq + 1 → r'.entries = r.entries.insert key ⟨value, r.seq + 1⟩ →
      r'.current = (r.enter .edited).current → r'.fixed = r.fixed → Wrote r key value r'

theorem write_wrote (r : Replica) (key : String) (value : Option Bytes) :
    Wrote r key value (r.write key value) := by
  by_cases h : r.phase = .edited
  · have hw : r.write key value = { r with entries := r.entries.insert key ⟨value, r.seq⟩ } := by
      simp only [write, beginEdit, if_pos h]
    rw [hw]
    exact .within h
  · refine .opening _ h ?_ ?_ ?_ ?_ ?_ (enter_fixed r .edited ▸ ?_) <;>
      simp [write, beginEdit, if_neg h, fixed]

/-- A change takes effect when it would give a key another value. -/
def Effective (r : Replica) (change : Change) : Prop := r.get change.key ≠ change.value

instance (r : Replica) (change : Change) : Decidable (r.Effective change) :=
  inferInstanceAs (Decidable (_ ≠ _))

theorem change_of_effective {change : Change} (h : r.Effective change) :
    r.change change = (true, r.write change.key change.value) := by
  unfold Effective at h
  unfold Replica.change
  cases hv : change.value with
  | some v => simp only [set, if_neg (hv ▸ h)]
  | none => simp only [erase, if_neg (hv ▸ h)]

theorem change_of_not_effective {change : Change} (h : ¬ r.Effective change) :
    r.change change = (false, r) := by
  unfold Effective at h
  unfold Replica.change
  cases hv : change.value with
  | some v => simp only [set, if_pos (hv ▸ not_not.1 h)]
  | none => simp only [erase, if_pos (hv ▸ not_not.1 h)]

theorem change_changed_iff {change : Change} : (r.change change).1 = true ↔ r.Effective change := by
  by_cases h : r.Effective change
  · simp [change_of_effective h, h]
  · simp [change_of_not_effective h, h]

theorem change_fixed (r : Replica) (what : Change) : (r.change what).2.fixed = r.fixed := by
  by_cases heff : r.Effective what
  · rw [change_of_effective heff]
    have hw := write_wrote r what.key what.value
    generalize r.write what.key what.value = r' at hw ⊢
    cases hw with
    | within => rfl
    | opening _ _ _ _ _ _ _ hfixed => exact hfixed
  · rw [change_of_not_effective heff]

/-- What is written can be read. -/
theorem get_write (r : Replica) (key : String) (value : Option Bytes) :
    (r.write key value).get key = value := by
  have h := write_wrote r key value
  generalize r.write key value = r' at h
  cases h with
  | within => simp [get, Entries.value?]
  | opening _ _ _ _ _ he => simp [get, he, Entries.value?]

/-! ### Received generations -/

/-- How a copy takes a generation stored under `hash`. -/
inductive Took (r : Replica) (hash : String) (g : Generation) : Bool × Replica → Prop where
  | known : r.current = some hash → Took r hash g (true, r)
  | stale : g.seq < r.seq →
      Took r hash g (false, { r with retired := r.retired.add hash, unsaved := true })
  | copied : g.seq = r.seq → g.entries = r.entries → Took r hash g (true, r.takeCopy hash)
  | adopted : r.seq ≤ g.seq → r.entries ≤ g.entries → Took r hash g (true, r.adopt hash g)
  | combined : r.seq ≤ g.seq → ¬ r.entries ≤ g.entries → Took r hash g (true, r.combine hash g)

theorem take_took (r : Replica) (hash : String) (g : Generation) :
    Took r hash g (r.take hash g) := by
  unfold take
  split
  · exact .known (by assumption)
  split
  · exact .stale (by assumption)
  rename_i hseq
  split
  · rename_i hsame
    exact .copied hsame.1 hsame.2
  split
  · rename_i hle
    exact .adopted (Int.not_lt.1 hseq) (Entries.join_eq_right_iff.1 hle)
  · rename_i hle
    exact .combined (Int.not_lt.1 hseq) (mt Entries.join_eq_right_iff.2 hle)

@[simp] theorem takeCopy_phase (r : Replica) (hash : String) :
    (r.takeCopy hash).phase = .settled := by
  unfold takeCopy
  split
  · split <;> assumption
  all_goals first | assumption | rfl

@[simp] theorem takeCopy_seq (r : Replica) (hash : String) : (r.takeCopy hash).seq = r.seq := by
  unfold takeCopy; repeat' split
  all_goals rfl

@[simp] theorem takeCopy_entries (r : Replica) (hash : String) :
    (r.takeCopy hash).entries = r.entries := by
  unfold takeCopy; repeat' split
  all_goals rfl

@[simp] theorem takeCopy_unsaved (r : Replica) (hash : String) :
    (r.takeCopy hash).unsaved = true := by
  unfold takeCopy; repeat' split
  all_goals rfl

@[simp] theorem takeCopy_fixed (r : Replica) (hash : String) :
    (r.takeCopy hash).fixed = r.fixed := by
  unfold takeCopy; repeat' split
  all_goals rfl

/-- Of two copies of one generation, either may stay the current one. -/
theorem takeCopy_current (r : Replica) (hash : String) :
    (r.takeCopy hash).current = some hash ∨
      r.phase = .settled ∧ (r.takeCopy hash).current = r.current := by
  unfold takeCopy
  split
  · split
    · exact .inr ⟨by assumption, rfl⟩
    · exact .inl rfl
  all_goals exact .inl rfl

@[simp] theorem adopt_phase (r : Replica) (hash : String) (g : Generation) :
    (r.adopt hash g).phase = .settled := rfl

@[simp] theorem adopt_seq (r : Replica) (hash : String) (g : Generation) :
    (r.adopt hash g).seq = g.seq := rfl

@[simp] theorem adopt_entries (r : Replica) (hash : String) (g : Generation) :
    (r.adopt hash g).entries = g.entries := rfl

@[simp] theorem adopt_current (r : Replica) (hash : String) (g : Generation) :
    (r.adopt hash g).current = some hash := rfl

@[simp] theorem adopt_unsaved (r : Replica) (hash : String) (g : Generation) :
    (r.adopt hash g).unsaved = true := rfl

@[simp] theorem adopt_fixed (r : Replica) (hash : String) (g : Generation) :
    (r.adopt hash g).fixed = r.fixed := by
  unfold adopt
  split
  · exact retireCurrent_fixed r
  · rfl

@[simp] theorem combine_phase (r : Replica) (hash : String) (g : Generation) :
    (r.combine hash g).phase = .edited := rfl

@[simp] theorem combine_seq (r : Replica) (hash : String) (g : Generation) :
    (r.combine hash g).seq = max r.seq g.seq + 1 := rfl

@[simp] theorem combine_entries (r : Replica) (hash : String) (g : Generation) :
    (r.combine hash g).entries = r.entries.join g.entries := rfl

@[simp] theorem combine_unsaved (r : Replica) (hash : String) (g : Generation) :
    (r.combine hash g).unsaved = true := rfl

theorem combine_current (r : Replica) (hash : String) (g : Generation) :
    (r.combine hash g).current = (r.enter .edited).current := rfl

@[simp] theorem combine_fixed (r : Replica) (hash : String) (g : Generation) :
    (r.combine hash g).fixed = r.fixed := enter_fixed r .edited

theorem take_fixed (r : Replica) (hash : String) (g : Generation) :
    (r.take hash g).2.fixed = r.fixed := by
  have h := take_took r hash g
  generalize r.take hash g = x at h ⊢
  cases h with
  | known | stale => rfl
  | copied => exact takeCopy_fixed r hash
  | adopted => exact adopt_fixed r hash g
  | combined => exact combine_fixed r hash g

/-- To take a generation changes nothing, or marks the copy as unsaved. -/
theorem take_eq_or_unsaved (r : Replica) (hash : String) (g : Generation) :
    (r.take hash g).2 = r ∨ (r.take hash g).2.unsaved = true := by
  have h := take_took r hash g
  generalize r.take hash g = x at h ⊢
  cases h with
  | known => exact .inl rfl
  | stale => exact .inr rfl
  | copied => exact .inr (takeCopy_unsaved r hash)
  | adopted => exact .inr rfl
  | combined => exact .inr rfl

/-! ### Batches -/

theorem merge_cons (c : Cipher) (r : Replica) (hash : String) (payload : Bytes)
    (others : List (String × Bytes)) :
    r.merge c ((hash, payload) :: others) =
      let one := r.takePayload c hash payload
      let rest := one.2.merge c others
      (if one.1 then hash :: rest.1 else rest.1, rest.2) := rfl

/-- What each payload of a batch keeps, the whole batch keeps. -/
theorem merge_induction {P : Replica → Prop} : ∀ {batch : List (String × Bytes)},
    (∀ hash payload, (hash, payload) ∈ batch → ∀ r, P r → P (r.takePayload c hash payload).2) →
    ∀ r, P r → P (r.merge c batch).2
  | [], _, _, hr => hr
  | (hash, payload) :: _, h, r, hr =>
    merge_induction (fun hash' payload' hm => h hash' payload' (List.mem_cons_of_mem _ hm)) _
      (h hash payload List.mem_cons_self r hr)

/-- A payload that cannot be read changes nothing; another is taken as its generation. -/
theorem takePayload_cases (c : Cipher) (r : Replica) (hash : String) (payload : Bytes) :
    r.read? c payload = none ∧ r.takePayload c hash payload = (false, r) ∨
      ∃ g, r.read? c payload = some g ∧ r.takePayload c hash payload = r.take hash g := by
  unfold takePayload
  cases r.read? c payload with
  | none => exact .inl ⟨rfl, rfl⟩
  | some g => exact .inr ⟨g, rfl, rfl⟩

theorem merge_fixed (c : Cipher) (r : Replica) (batch : List (String × Bytes)) :
    (r.merge c batch).2.fixed = r.fixed := by
  refine merge_induction (P := fun r' => r'.fixed = r.fixed) (fun hash payload _ r' hr' => ?_) r rfl
  rcases takePayload_cases c r' hash payload with ⟨-, h⟩ | ⟨g, -, h⟩ <;> rw [h]
  · exact hr'
  · exact (take_fixed r' hash g).trans hr'

theorem merge_eq_or_unsaved (c : Cipher) (r : Replica) (batch : List (String × Bytes)) :
    (r.merge c batch).2 = r ∨ (r.merge c batch).2.unsaved = true := by
  refine merge_induction (P := fun r' => r' = r ∨ r'.unsaved = true) ?_ r (.inl rfl)
  rintro hash payload - r' hr'
  rcases takePayload_cases c r' hash payload with ⟨-, h⟩ | ⟨g, -, h⟩ <;> rw [h]
  · exact hr'
  · rcases take_eq_or_unsaved r' hash g with h' | h'
    · rw [h']; exact hr'
    · exact .inr h'

/-- Messages none of which is accepted leave phase, number and entries. -/
theorem merge_of_none (c : Cipher) : ∀ {batch : List (String × Bytes)} {r : Replica},
    (r.merge c batch).1 = [] → (r.merge c batch).2.phase = r.phase ∧
      (r.merge c batch).2.seq = r.seq ∧ (r.merge c batch).2.entries = r.entries
  | [], _, _ => ⟨rfl, rfl, rfl⟩
  | (hash, payload) :: batch, r, h => by
    rw [merge_cons] at h ⊢
    dsimp only at h ⊢
    cases hone : (r.takePayload c hash payload).1 with
    | true => simp [hone] at h
    | false =>
      rw [hone] at h
      obtain ⟨hphase, hseq, hentries⟩ := merge_of_none c h
      have hsame : (r.takePayload c hash payload).2.phase = r.phase ∧
          (r.takePayload c hash payload).2.seq = r.seq ∧
          (r.takePayload c hash payload).2.entries = r.entries := by
        rcases takePayload_cases c r hash payload with ⟨-, heq⟩ | ⟨g, -, heq⟩
        · rw [heq]
          exact ⟨rfl, rfl, rfl⟩
        · rw [heq] at hone ⊢
          have ht := take_took r hash g
          generalize r.take hash g = x at ht hone ⊢
          cases ht with
          | stale => exact ⟨rfl, rfl, rfl⟩
          | known | copied | adopted | combined => cases hone
      exact ⟨hphase.trans hsame.1, hseq.trans hsame.2.1, hentries.trans hsame.2.2⟩

/-! ### Publishing -/

/-- What the swarm's answer does to a copy. -/
inductive Confirmed (r : Replica) (seq : Int) (hash : String) : Bool × Replica → Prop where
  | applied (r' : Replica) : r.phase = .sent → seq = r.seq → r'.phase = .settled →
      r'.seq = r.seq → r'.entries = r.entries → r'.current = some hash → r'.unsaved = true →
      r'.fixed = r.fixed → Confirmed r seq hash (true, r')
  | ignored : ¬ (r.phase = .sent ∧ seq = r.seq) → Confirmed r seq hash (false, r)

theorem confirm_confirmed (r : Replica) (seq : Int) (hash : String) :
    Confirmed r seq hash (r.confirm seq hash) := by
  by_cases h : r.phase = .sent ∧ seq = r.seq
  · simp only [confirm, if_pos h]
    refine .applied _ h.1 h.2 ?_ ?_ ?_ ?_ ?_ (enter_fixed r .settled) <;> simp
  · simp only [confirm, if_neg h]
    exact .ignored h

theorem confirm_fixed (r : Replica) (seq : Int) (hash : String) :
    (r.confirm seq hash).2.fixed = r.fixed := by
  have h := confirm_confirmed r seq hash
  generalize r.confirm seq hash = x at h ⊢
  cases h with
  | applied _ _ _ _ _ _ _ _ hfixed => exact hfixed
  | ignored => rfl

/-- What a push does to a copy. -/
inductive Pushed (r : Replica) (payload : Bytes) : Except Failure Push × Replica → Prop where
  | refused (f : Failure) : r.limit < payload.length → Pushed r payload (.error f, r)
  | made (r' : Replica) (superseded : List String) : payload.length ≤ r.limit →
      (r'.phase = if r.phase = .edited then .sent else r.phase) →
      (r.phase = .edited → r'.unsaved = true) →
      (r.phase ≠ .edited → r'.toStanding = r.toStanding ∧ r'.unsaved = r.unsaved) →
      r'.seq = r.seq → r'.entries = r.entries → r'.current = r.current →
      superseded = r'.retired.keys → r'.inFlight = superseded →
      r'.fixed = r.fixed → Pushed r payload (.ok ⟨payload, r.seq, superseded⟩, r')

theorem push_pushed (c : Cipher) (nonce : Bytes) (r : Replica) :
    Pushed r (r.payload c nonce) (r.push c nonce) := by
  by_cases hlen : r.limit < (r.payload c nonce).length
  · have hp : r.push c nonce = (.error (.engine r.topic "push" "Config data is too large"), r) := by
      simp only [push, gt_iff_lt, if_pos hlen]
    rw [hp]
    exact .refused _ hlen
  by_cases h : r.phase = .edited
  · have hcur : (r.enter .sent).current = r.current := by simp [enter, h]
    simp only [push, gt_iff_lt, if_neg hlen, if_pos h, enter_seq]
    refine .made _ _ (Nat.not_lt.1 hlen) ?_ ?_ ?_ ?_ ?_ ?_ rfl rfl (enter_fixed r .sent) <;>
      simp [h, hcur]
  · simp only [push, gt_iff_lt, if_neg hlen, if_neg h]
    refine .made _ _ (Nat.not_lt.1 hlen) ?_ ?_ ?_ ?_ ?_ ?_ rfl rfl rfl <;> simp [h]

theorem push_fixed (c : Cipher) (nonce : Bytes) (r : Replica) :
    (r.push c nonce).2.fixed = r.fixed := by
  have h := push_pushed c nonce r
  generalize r.push c nonce = x at h ⊢
  cases h with
  | refused => rfl
  | made _ _ _ _ _ _ _ _ _ _ _ hfixed => exact hfixed

theorem push_eq_ok {nonce : Bytes} {push : Push} (h : (r.push c nonce).1 = .ok push) :
    push.payload = r.payload c nonce ∧ push.seq = r.seq ∧ (r.payload c nonce).length ≤ r.limit := by
  have hp := push_pushed c nonce r
  generalize r.push c nonce = x at hp h
  cases hp with
  | refused => cases h
  | made _ _ hlen =>
    obtain rfl := Except.ok.inj h
    exact ⟨rfl, rfl, hlen⟩

/-- A push of edits that fit in a message sends them. -/
theorem push_of_edited (c : Cipher) (nonce : Bytes) (hp : r.phase = .edited)
    (hlen : (r.payload c nonce).length ≤ r.limit) :
    r.push c nonce = (.ok ⟨r.payload c nonce, r.seq, r.retired.keys⟩,
      { r with phase := .sent, unsaved := true, inFlight := r.retired.keys }) := by
  simp [push, enter, hp, Nat.not_lt.2 hlen]

/-! ### Events -/

/-- What may happen to a copy. -/
inductive Event where
  /-- A change by whoever holds the device. -/
  | change (what : Change)
  | merge (batch : List (String × Bytes))
  | push (nonce : Bytes)
  | confirm (seq : Int) (hash : String)
  | dump
  deriving DecidableEq

/-- The copy after an event. -/
def step (c : Cipher) (r : Replica) : Event → Replica
  | .change what => (r.change what).2
  | .merge batch => (r.merge c batch).2
  | .push nonce => (r.push c nonce).2
  | .confirm seq hash => (r.confirm seq hash).2
  | .dump => r.dump.2

end Replica

end AccountSync
