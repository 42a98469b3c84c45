import AccountSync.Proofs.Replica.Retired
import AccountSync.Proofs.Swarm.Steps
/-!
The hashes that a copy keeps track of, so that it can have them deleted one day: the current one, and
those that are retired. Only a settled copy has a current hash (`Replica.Steady`), and so none is
overwritten. Whatever happens to a copy, a hash that it has heard of is tracked from then on, until an
answer takes effect to a push that has named it (`Tracked.heard_is_tracked`).
-/

namespace AccountSync

namespace Replica

variable {c : Cipher} {r : Replica} {hash taken : String} {g : Generation} {named : List String}

/-! ### Hashes that stay -/

/-- A hash is the current one, or is retired. -/
def Tracks (r : Replica) (hash : String) : Prop := r.current = some hash ∨ hash ∈ r.retired.keys

theorem Tracks.enter (h : r.Tracks hash) (phase : Phase) : (r.enter phase).Tracks hash := by
  unfold Replica.enter
  split
  · exact .inr (mem_retireCurrent.2 h)
  · exact h

theorem Tracks.write (h : r.Tracks hash) (key : String) (value : Option Bytes) :
    (r.write key value).Tracks hash := by
  by_cases hp : r.phase = .edited
  · simp only [Replica.write, beginEdit, if_pos hp]
    exact h
  · simp only [Replica.write, beginEdit, if_neg hp]
    exact h.enter .edited

theorem Tracks.change (h : r.Tracks hash) (what : Change) : (r.change what).2.Tracks hash := by
  by_cases heff : r.Effective what
  · rw [change_of_effective heff]
    exact h.write what.key what.value
  · rw [change_of_not_effective heff]
    exact h

theorem Tracks.push (h : r.Tracks hash) (nonce : Bytes) : (r.push c nonce).2.Tracks hash := by
  unfold Replica.push
  dsimp only
  split
  · exact h
  split
  · exact h.enter .sent
  · exact h

/-- What a settled copy tracks it tracks when a message was taken. -/
theorem Tracks.take_settled (h : r.Tracks hash) (hp : r.phase = .settled) :
    (r.take taken g).2.Tracks hash := by
  rcases h with hcur | hretired
  · have hretire : hash ∈ r.retireCurrent.retired.keys := mem_retireCurrent.2 (.inl hcur)
    have ht := take_took r taken g
    generalize r.take taken g = x at ht ⊢
    cases ht with
    | known | stale => exact .inl hcur
    | copied =>
      simp only [takeCopy, hp, hcur]
      split
      · exact .inl rfl
      · exact .inr (SortedSet.mem_keys_add.2 (.inl rfl))
    | adopted =>
      refine .inr ?_
      simp only [adopt, if_pos hp]
      exact hretire
    | combined =>
      refine .inr (SortedSet.mem_keys_add.2 (.inr ?_))
      simp only [Replica.enter, if_pos hp]
      exact hretire
  · exact .inr (retired_subset_take hretired)

/-- The hash of a message that is taken is tracked, whether the message is accepted or not. -/
theorem tracks_take (r : Replica) (hash : String) (g : Generation) :
    (r.take hash g).2.Tracks hash := by
  have ht := take_took r hash g
  generalize r.take hash g = x at ht ⊢
  cases ht with
  | known hcur => exact .inl hcur
  | stale | combined => exact .inr (SortedSet.mem_keys_add.2 (.inl rfl))
  | adopted => exact .inl rfl
  | copied =>
    unfold takeCopy
    split
    · split
      · exact .inr (SortedSet.mem_keys_add.2 (.inl rfl))
      · exact .inl rfl
    all_goals exact .inl rfl

/-! ### What no event breaks -/

/-- Only a settled copy has a current hash, and one that waits remembers what its last push has named.
-/
structure Steady (r : Replica) (named : List String) : Prop where
  pending : r.phase ≠ .settled → r.current = none
  remembers : r.phase = .sent → r.inFlight = named

theorem steady_of_settled (h : r.phase = .settled) : r.Steady named :=
  ⟨fun hp => absurd h hp, fun hp => by rw [h] at hp; cases hp⟩

theorem steady_of_edited (h : r.phase = .edited) (hcur : r.current = none) : r.Steady named :=
  ⟨fun _ => hcur, fun hp => by rw [h] at hp; cases hp⟩

theorem Steady.change (h : r.Steady named) (what : Change) : (r.change what).2.Steady named := by
  by_cases heff : r.Effective what
  · rw [change_of_effective heff]
    have hw := write_wrote r what.key what.value
    generalize r.write what.key what.value = r' at hw ⊢
    cases hw with
    | within => exact ⟨h.pending, h.remembers⟩
    | opening _ _ hphase _ _ _ hcurrent =>
      exact steady_of_edited hphase (hcurrent.trans (enter_current h.pending .edited))
  · rw [change_of_not_effective heff]
    exact h

theorem Steady.take (h : r.Steady named) (hash : String) (g : Generation) :
    (r.take hash g).2.Steady named := by
  have ht := take_took r hash g
  generalize r.take hash g = x at ht ⊢
  cases ht with
  | known => exact h
  | stale => exact ⟨h.pending, h.remembers⟩
  | copied => exact steady_of_settled (takeCopy_phase r hash)
  | adopted => exact steady_of_settled rfl
  | combined => exact steady_of_edited rfl (enter_current h.pending .edited)

theorem Steady.takePayload (h : r.Steady named) (hash : String) (payload : Bytes) :
    (r.takePayload c hash payload).2.Steady named := by
  rcases takePayload_cases c r hash payload with ⟨-, hread⟩ | ⟨g, -, hread⟩ <;> rw [hread]
  · exact h
  · exact h.take hash g

theorem Steady.merge (h : r.Steady named) (batch : List (String × Bytes)) :
    (r.merge c batch).2.Steady named :=
  merge_induction (P := fun r => r.Steady named)
    (fun hash payload _ _ hr => hr.takePayload hash payload) r h

/-- A push that fails changes nothing. -/
theorem push_of_error {nonce : Bytes} {f : Failure} (h : (r.push c nonce).1 = .error f) :
    (r.push c nonce).2 = r := by
  have hp := push_pushed c nonce r
  generalize r.push c nonce = x at hp h ⊢
  cases hp with
  | refused => rfl
  | made => cases h

/-- After a push that succeeds the copy remembers what this one has named. -/
theorem Steady.push {nonce : Bytes} {push : Push} (h : r.Steady named)
    (hpush : (r.push c nonce).1 = .ok push) : (r.push c nonce).2.Steady push.superseded := by
  obtain ⟨-, hflight⟩ := push_names hpush
  refine ⟨fun hp => ?_, fun _ => hflight⟩
  have hpushed := push_pushed c nonce r
  generalize r.push c nonce = x at hpushed hp ⊢
  cases hpushed with
  | refused => exact h.pending hp
  | made _ _ _ hphase _ _ _ _ hcurrent =>
    rw [hcurrent]
    refine h.pending fun hset => hp ?_
    rw [hphase, if_neg (by rw [hset]; decide), hset]

theorem Steady.confirm (h : r.Steady named) (seq : Int) (answer : String) :
    (r.confirm seq answer).2.Steady named := by
  have hc := confirm_confirmed r seq answer
  generalize r.confirm seq answer = x at hc ⊢
  cases hc with
  | applied _ _ _ hphase => exact steady_of_settled hphase
  | ignored => exact h

theorem Tracks.takePayload (h : r.Tracks hash) (hs : r.Steady named) (taken : String)
    (payload : Bytes) : (r.takePayload c taken payload).2.Tracks hash := by
  rcases takePayload_cases c r taken payload with ⟨-, hread⟩ | ⟨g, -, hread⟩ <;> rw [hread]
  · exact h
  rcases h with hcur | hretired
  · have hset : r.phase = .settled := by
      by_contra hp
      rw [hs.pending hp] at hcur
      cases hcur
    exact Tracks.take_settled (.inl hcur) hset
  · exact .inr (retired_subset_take hretired)

theorem Tracks.merge (h : r.Tracks hash) (hs : r.Steady named) (batch : List (String × Bytes)) :
    (r.merge c batch).2.Tracks hash :=
  (merge_induction (P := fun r => r.Steady named ∧ r.Tracks hash)
    (fun taken payload _ _ hr => ⟨hr.1.takePayload taken payload, hr.2.takePayload hr.1 taken payload⟩)
    r ⟨hs, h⟩).2

/-- The hash of every message of a batch that can be read is tracked. -/
theorem tracks_merge {payload : Bytes} : ∀ {batch : List (String × Bytes)} {r : Replica},
    r.Steady named → (hash, payload) ∈ batch → r.read? c payload = some g →
      (r.merge c batch).2.Tracks hash
  | [], _, _, hmem, _ => absurd hmem List.not_mem_nil
  | (taken, other) :: batch, r, hs, hmem, hread => by
    have hrest := hs.takePayload (c := c) taken other
    rw [merge_cons]
    rcases List.mem_cons.1 hmem with heq | hmem
    · obtain ⟨rfl, rfl⟩ := Prod.mk.inj heq
      refine Tracks.merge ?_ hrest batch
      rw [takePayload, hread]
      exact tracks_take r hash g
    · have hfixed : (r.takePayload c taken other).2.fixed = r.fixed := by
        rcases takePayload_cases c r taken other with ⟨-, hone⟩ | ⟨x, -, hone⟩ <;> rw [hone]
        exact take_fixed r taken x
      exact tracks_merge hrest hmem ((read?_congr hfixed payload).trans hread)

/-- An answer that takes effect leaves a copy with the hash that it names, and without those that the
last push has named. -/
theorem confirm_clears {seq : Int} {answer : String} (h : r.Steady named)
    (happlied : (r.confirm seq answer).1 = true) :
    (r.confirm seq answer).2.current = some answer ∧
      ∀ hash, hash ∈ (r.confirm seq answer).2.retired.keys ↔
        hash ∈ r.retired.keys ∧ hash ∉ named := by
  have hretired := retired_confirm happlied
  have hc := confirm_confirmed r seq answer
  generalize r.confirm seq answer = x at happlied hretired hc ⊢
  cases hc with
  | ignored => cases happlied
  | applied _ hsent _ _ _ _ hcurrent =>
    refine ⟨hcurrent, fun hash => ?_⟩
    rw [hretired, h.remembers hsent, SortedSet.mem_keys_removeAll]

/-- A hash that was tracked is tracked after an answer, unless the answer clears it. -/
theorem Tracks.confirm {seq : Int} {answer : String} (h : r.Tracks hash) (hs : r.Steady named) :
    (r.confirm seq answer).2.Tracks hash ∨ (r.confirm seq answer).1 = true ∧ hash ∈ named := by
  by_cases happlied : (r.confirm seq answer).1 = true
  · have hclears := (confirm_clears hs happlied).2 hash
    have hretired : hash ∈ r.retired.keys := by
      refine h.resolve_left fun hcur => ?_
      have hc := confirm_confirmed r seq answer
      generalize r.confirm seq answer = x at hc happlied
      cases hc with
      | ignored => cases happlied
      | applied _ hsent =>
        rw [hs.pending (by rw [hsent]; decide)] at hcur
        cases hcur
    by_cases hnamed : hash ∈ named
    · exact .inr ⟨happlied, hnamed⟩
    · exact .inl (.inr (hclears.2 ⟨hretired, hnamed⟩))
  · have hc := confirm_confirmed r seq answer
    generalize r.confirm seq answer = x at hc happlied ⊢
    cases hc with
    | applied => exact absurd rfl happlied
    | ignored => exact .inl h

end Replica

open Replica (Event)

/-! ### Runs -/

/-- A copy, and what the last push that succeeded has named. -/
structure Tracked where
  copy : Replica
  named : List String := []

namespace Tracked

variable {c : Cipher} {t : Tracked} {hash : String} {e : Event}

def step (c : Cipher) (t : Tracked) (e : Event) : Tracked where
  copy := t.copy.step c e
  named :=
    match e with
    | .push nonce =>
      match (t.copy.push c nonce).1 with
      | .ok push => push.superseded
      | .error _ => t.named
    | .change _ | .merge _ | .confirm _ _ | .dump => t.named

def run (c : Cipher) (t : Tracked) (es : List Event) : Tracked := es.foldl (step c) t

/-- A copy hears of a hash: it merges a message under it that it can read, or takes an answer that
names it. -/
inductive Hears (c : Cipher) (r : Replica) (hash : String) : Event → Prop where
  | merged {batch : List (String × Bytes)} {payload : Bytes} {g : Generation} :
      (hash, payload) ∈ batch → r.read? c payload = some g → Hears c r hash (.merge batch)
  | confirmed {seq : Int} : (r.confirm seq hash).1 = true → Hears c r hash (.confirm seq hash)

/-- An answer takes effect, and the last push that succeeded has named a hash. -/
inductive Clears (t : Tracked) (hash : String) : Event → Prop where
  | confirmed {seq : Int} {answer : String} : (t.copy.confirm seq answer).1 = true →
      hash ∈ t.named → Clears t hash (.confirm seq answer)

theorem run_append (t : Tracked) (es es' : List Event) :
    t.run c (es ++ es') = (t.run c es).run c es' := List.foldl_append

theorem steady_step (h : t.copy.Steady t.named) (e : Event) :
    (t.step c e).copy.Steady (t.step c e).named := by
  cases e with
  | change what => exact h.change what
  | merge batch => exact h.merge batch
  | confirm seq answer => exact h.confirm seq answer
  | dump => exact ⟨h.pending, h.remembers⟩
  | push nonce =>
    simp only [step, Replica.step]
    split
    · rename_i push hpush
      exact h.push hpush
    · rename_i f hpush
      rw [Replica.push_of_error hpush]
      exact h

theorem steady_run (h : t.copy.Steady t.named) (es : List Event) :
    (t.run c es).copy.Steady (t.run c es).named := by
  induction es generalizing t with
  | nil => exact h
  | cons e es ih => exact ih (steady_step h e)

/-- An event keeps track of a hash, or clears it. -/
theorem tracks_step (hs : t.copy.Steady t.named) (h : t.copy.Tracks hash) (e : Event) :
    (t.step c e).copy.Tracks hash ∨ t.Clears hash e := by
  cases e with
  | change what => exact .inl (h.change what)
  | merge batch => exact .inl (h.merge hs batch)
  | push nonce => exact .inl (h.push nonce)
  | confirm seq answer => exact (h.confirm hs).imp_right fun hc => .confirmed hc.1 hc.2
  | dump => exact .inl h

/-- A run keeps track of a hash, or clears it on its way. -/
theorem tracks_run (hs : t.copy.Steady t.named) (h : t.copy.Tracks hash) (es : List Event) :
    (t.run c es).copy.Tracks hash ∨
      ∃ before e, before ++ [e] <+: es ∧ (t.run c before).Clears hash e := by
  induction es generalizing t with
  | nil => exact .inl h
  | cons e es ih =>
    rcases tracks_step hs h e with htracks | hclears
    · refine (ih (steady_step hs e) htracks).imp_right ?_
      rintro ⟨before, e', hprefix, hclears⟩
      exact ⟨e :: before, e', List.cons_prefix_cons.2 ⟨rfl, hprefix⟩, hclears⟩
    · exact .inr ⟨[], e, List.cons_prefix_cons.2 ⟨rfl, List.nil_prefix⟩, hclears⟩

/-- What a copy hears of it tracks. -/
theorem tracks_of_hears (hs : t.copy.Steady t.named) (h : Hears c t.copy hash e) :
    (t.step c e).copy.Tracks hash := by
  cases h with
  | merged hmem hread => exact Replica.tracks_merge hs hmem hread
  | confirmed happlied => exact .inl (Replica.confirm_clears hs happlied).1

/-- From when a fresh copy has heard of a hash, the hash is the current one or retired at any time,
unless an answer has taken effect since to a push that had named it. Such an answer clears what the
last push has named, and nothing else that is retired. -/
theorem heard_is_tracked (c : Cipher) (topic : Topic) (secret : Secret) (limit : Nat) :
    let start : Tracked := { copy := .fresh topic secret limit }
    (∀ before e hash, Hears c (start.run c before).copy hash e → ∀ after,
      (start.run c (before ++ e :: after)).copy.Tracks hash ∨
        ∃ middle e', middle ++ [e'] <+: after ∧
          (start.run c (before ++ e :: middle)).Clears hash e') ∧
    ∀ es seq answer r, (start.run c es).copy.confirm seq answer = (true, r) →
      r.current = some answer ∧ ∀ hash, hash ∈ r.retired.keys ↔
        hash ∈ (start.run c es).copy.retired.keys ∧ hash ∉ (start.run c es).named := by
  intro start
  have hsteady : ∀ es, (start.run c es).copy.Steady (start.run c es).named :=
    steady_run (Replica.steady_of_settled rfl)
  refine ⟨fun before e hash hhears after => ?_, fun es seq answer r happlied => ?_⟩
  · have hnow := tracks_of_hears (hsteady before) hhears
    have hrun : ∀ es, start.run c (before ++ e :: es) = ((start.run c before).step c e).run c es :=
      fun es =>
      run_append start before (e :: es)
    simp only [hrun]
    exact tracks_run (steady_step (hsteady before) e) hnow after
  · have hclears := Replica.confirm_clears (hsteady es) (congrArg Prod.fst happlied)
    rwa [happlied] at hclears

/-- A copy publishes an entry, removes it again, and has the first message deleted with the second. -/
theorem exists_cleared (c : Cipher) (hc : c.Faithful) :
    ∃ before middle : List Event,
      let start : Tracked := { copy := .fresh .contacts default }
      let last := start.run c (before ++ .confirm 1 "h" :: middle)
      ((start.run c before).copy.confirm 1 "h").1 = true ∧
        (last.copy.confirm 2 "k").1 = true ∧ "h" ∈ last.named := by
  let nonce : Bytes := List.replicate Cipher.nonceLength 0
  have hnonce : nonce.length = Cipher.nonceLength := List.length_replicate
  let first : Replica := ((Replica.fresh .contacts default).change ⟨"a", some [1]⟩).2
  let sent : Replica :=
    { first with phase := .sent, unsaved := true, inFlight := first.retired.keys }
  let second : Replica := ((sent.confirm 1 "h").2.change ⟨"a", none⟩).2
  let last : Replica :=
    { second with phase := .sent, unsaved := true, inFlight := second.retired.keys }
  have hpush := Replica.push_of_edited c nonce (r := first) rfl
    (Replica.payload_fits hc hnonce (by decide))
  have hpush' := Replica.push_of_edited c nonce (r := second) rfl
    (Replica.payload_fits hc hnonce (by decide))
  let start : Tracked := { copy := .fresh .contacts default }
  let before : List Event := [.change ⟨"a", some [1]⟩, .push nonce]
  let middle : List Event := [.change ⟨"a", none⟩, .push nonce]
  have hbefore : start.run c before = ⟨sent, first.retired.keys⟩ := by
    have hrun : start.run c before = (⟨first, []⟩ : Tracked).step c (.push nonce) := rfl
    rw [hrun, step, Replica.step, hpush]
  have hmiddle : start.run c (before ++ .confirm 1 "h" :: middle) =
      ⟨last, second.retired.keys⟩ := by
    have hrun : (⟨sent, first.retired.keys⟩ : Tracked).run c (.confirm 1 "h" :: middle) =
        (⟨second, first.retired.keys⟩ : Tracked).step c (.push nonce) := rfl
    rw [run_append, hbefore, hrun, step, Replica.step, hpush']
  refine ⟨before, middle, ?_, ?_, ?_⟩
  · rw [hbefore]
    decide
  · rw [hmiddle]
    decide
  · rw [hmiddle]
    decide

/-- The answer to the second message clears the hash of the first. -/
theorem heard_is_tracked_cleared :
    ∃ before after : List Event,
      let start : Tracked := { copy := .fresh .contacts default }
      Hears .xchacha20Poly1305 (start.run .xchacha20Poly1305 before).copy "h" (.confirm 1 "h") ∧
        ¬ (start.run .xchacha20Poly1305 (before ++ .confirm 1 "h" :: after)).copy.Tracks "h" ∧
        ∃ middle e, middle ++ [e] <+: after ∧
          (start.run .xchacha20Poly1305 (before ++ .confirm 1 "h" :: middle)).Clears "h" e := by
  obtain ⟨before, middle, hfirst, hlast, hnamed⟩ :=
    exists_cleared .xchacha20Poly1305 Cipher.faithful_xchacha20Poly1305
  obtain ⟨hkept, hcleared⟩ :=
    heard_is_tracked .xchacha20Poly1305 .contacts default Replica.defaultLimit
  have hhears := Hears.confirmed (c := .xchacha20Poly1305) hfirst
  have hends := hcleared _ 2 "k" _ (Prod.ext hlast rfl)
  have hgone : ¬ (Tracked.run .xchacha20Poly1305 { copy := .fresh .contacts default }
      (before ++ .confirm 1 "h" :: (middle ++ [.confirm 2 "k"]))).copy.Tracks "h" := by
    rw [← List.cons_append, ← List.append_assoc, run_append]
    rintro (hcur | hretired)
    · exact absurd (hends.1.symm.trans hcur) (by decide)
    · exact ((hends.2 "h").1 hretired).2 hnamed
  exact ⟨before, middle ++ [.confirm 2 "k"], hhears, hgone,
    (hkept before _ "h" hhears _).resolve_left hgone⟩

end Tracked

end AccountSync
