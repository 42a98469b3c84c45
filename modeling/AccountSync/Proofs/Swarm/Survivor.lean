import Mathlib.Data.Fintype.Lattice
import AccountSync.Proofs.Swarm.Backing
/-!
Devices that publish one and the same generation, each under a hash of its own. A copy counts the
messages that it merges, and counts its own when the swarm's answer comes before all of them; it ends
up settled under the greatest hash that it has counted (`Replica.Stands.run`). The others' messages
reach every device. So all agree on the greatest hash of all, except for the author of that one, if
its answer comes late (`Replica.greatest_copy_survives_iff`).
-/

namespace AccountSync

namespace Replica

/-! ### Arrivals -/

/-- What reaches a copy that waits: the answer to its own message, or a batch of messages. -/
inductive Arrival (ι : Type) where
  | answer
  | batch (authors : List ι)

variable {ι : Type} {c : Cipher} {p : ι → Post ι} {i j : ι} {known authors : List ι}
  {arrivals : List (Arrival ι)} {r₀ r : Replica} {g : Generation}

/-- What an arrival makes of the copy of device `i`, where `p j` is the message of device `j`. -/
def arrive (c : Cipher) (p : ι → Post ι) (i : ι) (r : Replica) : Arrival ι → Replica
  | .answer => (r.confirm (p i).content.seq (p i).hash).2
  | .batch authors => (r.merge c ((authors.map p).map Post.stored)).2

/-- The devices whose messages arrive. -/
def delivered : List (Arrival ι) → List ι
  | [] => []
  | .answer :: arrivals => delivered arrivals
  | .batch authors :: arrivals => authors ++ delivered arrivals

/-- The answer arrives before all messages. -/
def answeredFirst : List (Arrival ι) → Bool
  | [] => false
  | .answer :: _ => true
  | .batch [] :: arrivals => answeredFirst arrivals
  | .batch (_ :: _) :: _ => false

/-- The devices whose messages count for the copy of device `i`. -/
def counts (i : ι) (arrivals : List (Arrival ι)) : List ι :=
  if answeredFirst arrivals then i :: delivered arrivals else delivered arrivals

theorem mem_counts : j ∈ counts i arrivals ↔
    (answeredFirst arrivals = true ∧ j = i) ∨ j ∈ delivered arrivals := by
  unfold counts
  split
  · rename_i h
    simp [h]
  · rename_i h
    simp [h]

/-! ### What a copy has counted -/

/-- Of these messages, that of `best` has the greatest hash. -/
structure Best (p : ι → Post ι) (known : List ι) (best : ι) : Prop where
  mem : best ∈ known
  le : ∀ j ∈ known, (p j).hash ≤ (p best).hash

theorem best_singleton (p : ι → Post ι) (i : ι) : Best p [i] i :=
  ⟨List.mem_cons_self, fun _ hk => List.mem_singleton.1 hk ▸ le_rfl⟩

theorem Best.keep (h : Best p known i) (hle : (p j).hash ≤ (p i).hash) :
    Best p (known ++ [j]) i := by
  refine ⟨List.mem_append_left _ h.mem, fun k hk => ?_⟩
  rcases List.mem_append.1 hk with hk | hk
  · exact h.le k hk
  · exact List.mem_singleton.1 hk ▸ hle

theorem Best.replace (h : Best p known i) (hle : (p i).hash ≤ (p j).hash) :
    Best p (known ++ [j]) j := by
  refine ⟨List.mem_append_right _ List.mem_cons_self, fun k hk => ?_⟩
  rcases List.mem_append.1 hk with hk | hk
  · exact (h.le k hk).trans hle
  · exact List.mem_singleton.1 hk ▸ le_rfl

/-- A copy that started as `r₀` waits while it has counted no message, and is settled under the greatest
hash of those that it has counted. What it has retired since is less. -/
inductive Counted (p : ι → Post ι) (r₀ r : Replica) : List ι → Prop where
  | waiting : r.phase = .sent → (∀ j, r.current ≠ some (p j).hash) →
      (∀ hash ∈ r.retired.keys, hash ∈ r₀.retired.keys) → Counted p r₀ r []
  | backed {known : List ι} (best : ι) : Best p known best → r.phase = .settled →
      r.current = some (p best).hash →
      (∀ hash ∈ r.retired.keys, hash ∈ r₀.retired.keys ∨ hash < (p best).hash) →
      Counted p r₀ r known

/-- A copy that started as `r₀` holds the same generation, and has counted these messages of it. -/
structure Stands (p : ι → Post ι) (r₀ r : Replica) (known : List ι) : Prop where
  fixed : r.fixed = r₀.fixed
  generation : r.generation = r₀.generation
  counted : Counted p r₀ r known

theorem Counted.settled (h : Counted p r₀ r known) (hknown : known ≠ []) :
    r.phase = .settled ∧ ∃ best, Best p known best ∧ r.current = some (p best).hash ∧
      ∀ hash ∈ r.retired.keys, hash ∈ r₀.retired.keys ∨ hash < (p best).hash := by
  cases h with
  | waiting => exact absurd rfl hknown
  | backed best hbest hset hback hretired => exact ⟨hset, best, hbest, hback, hretired⟩

/-- A message that is taken is counted. -/
theorem Counted.take (h : Counted p r₀ r known) (hgen : (p j).content = r.generation) :
    Counted p r₀ (r.take (p j).hash (p j).content).2 (known ++ [j]) := by
  obtain ⟨-, hseq, hentries⟩ := eq_generation_iff.1 hgen
  cases h with
  | waiting hsent hcur hretired =>
    have hnone : r.phase = .settled → r.current = none := fun hs => by
      rw [hsent] at hs
      cases hs
    rw [take_of_same (hcur j) hseq hentries, takeCopy_of_none hnone]
    exact .backed j (best_singleton p j) rfl rfl fun hash hh => .inl (hretired hash hh)
  | backed best hbest hset hback hretired =>
    by_cases hcur : r.current = some (p j).hash
    · have hsame : (p j).hash = (p best).hash := Option.some.inj (hcur.symm.trans hback)
      rw [take_of_current hcur]
      exact .backed best (hbest.keep hsame.le) hset hback hretired
    rw [take_of_same hcur hseq hentries, takeCopy_of_settled hset hback]
    have hne : (p j).hash ≠ (p best).hash := fun he => hcur (he ▸ hback)
    rcases lt_or_gt_of_ne hne with hlt | hlt
    · rw [max_eq_left hlt.le, min_eq_right hlt.le]
      refine .backed best (hbest.keep hlt.le) hset rfl fun hash hh => ?_
      rcases SortedSet.mem_keys_add.1 hh with rfl | hh
      · exact .inr hlt
      · exact hretired hash hh
    · rw [max_eq_right hlt.le, min_eq_left hlt.le]
      refine .backed j (hbest.replace hlt.le) hset rfl fun hash hh => ?_
      rcases SortedSet.mem_keys_add.1 hh with rfl | hh
      · exact .inr hlt
      · exact (hretired hash hh).imp_right fun hless => hless.trans hlt

theorem Stands.take (h : Stands p r₀ r known) (hsame : ∀ j, (p j).content = r₀.generation) (j : ι) :
    Stands p r₀ (r.take (p j).hash (p j).content).2 (known ++ [j]) := by
  have hgen : (p j).content = r.generation := (hsame j).trans h.generation.symm
  obtain ⟨-, hseq, hentries⟩ := eq_generation_iff.1 hgen
  refine ⟨(take_fixed ..).trans h.fixed, Eq.trans ?_ h.generation, h.counted.take hgen⟩
  by_cases hcur : r.current = some (p j).hash
  · rw [take_of_current hcur]
  · rw [take_of_same hcur hseq hentries]
    exact generation_congr (takeCopy_fixed ..) (takeCopy_seq ..) (takeCopy_entries ..)

theorem Stands.takeAll (hsame : ∀ j, (p j).content = r₀.generation) :
    ∀ {authors known : List ι} {r : Replica}, Stands p r₀ r known →
      Stands p r₀ (r.takeAll (authors.map p)) (known ++ authors)
  | [], known, _, h => (List.append_nil known).symm ▸ h
  | j :: authors, known, r, h => by
    have hrest : Stands p r₀ ((r.take (p j).hash (p j).content).2.takeAll (authors.map p))
        (known ++ [j] ++ authors) := takeAll hsame (h.take hsame j)
    rwa [List.append_assoc] at hrest

theorem Stands.merge (h : Stands p r₀ r known) (hsame : ∀ j, (p j).content = r₀.generation)
    (hreads : ∀ j, r₀.Reads c (p j)) (authors : List ι) :
    Stands p r₀ (arrive c p i r (.batch authors)) (known ++ authors) := by
  have hread : ∀ x ∈ authors.map p, r.Reads c x := by
    intro x hx
    obtain ⟨j, -, rfl⟩ := List.mem_map.1 hx
    exact (hreads j).congr h.fixed
  rw [arrive, merge_eq_takeAll hread]
  exact h.takeAll hsame

/-- The answer counts if no message was counted before. -/
theorem Stands.answer_first (h : Stands p r₀ r []) (hsame : (p i).content = r₀.generation) :
    Stands p r₀ (arrive c p i r .answer) [i] := by
  obtain ⟨-, hseq, -⟩ := eq_generation_iff.1 (hsame.trans h.generation.symm)
  cases h.counted with
  | backed best hbest => exact absurd hbest.mem List.not_mem_nil
  | waiting hsent _ hretired =>
    have hc := confirm_confirmed r (p i).content.seq (p i).hash
    have hkept : ∀ hash ∈ (r.confirm (p i).content.seq (p i).hash).2.retired.keys,
        hash ∈ r₀.retired.keys := fun hash hh => hretired hash (mem_retired_of_confirm hh)
    rw [arrive]
    generalize r.confirm (p i).content.seq (p i).hash = x at hc hkept ⊢
    cases hc with
    | ignored hother => exact absurd ⟨hsent, hseq⟩ hother
    | applied _ _ _ hset hseq' hentries hcur _ hfixed =>
      exact ⟨hfixed.trans h.fixed, (generation_congr hfixed hseq' hentries).trans h.generation,
        .backed i (best_singleton p i) hset hcur fun hash hh => .inl (hkept hash hh)⟩

/-- After a message was counted the answer changes nothing. -/
theorem Stands.answer_later (h : Stands p r₀ r known) (hknown : known ≠ []) :
    arrive c p i r .answer = r := by
  cases h.counted with
  | waiting => exact absurd rfl hknown
  | backed best _ hset =>
    rw [arrive, confirm, if_neg]
    rintro ⟨hsent, -⟩
    rw [hset] at hsent
    cases hsent

/-- Once a copy has counted a message, it counts those that arrive. -/
theorem Stands.run_settled (hsame : ∀ j, (p j).content = r₀.generation)
    (hreads : ∀ j, r₀.Reads c (p j)) :
    ∀ {arrivals : List (Arrival ι)} {known : List ι} {r : Replica}, Stands p r₀ r known →
      known ≠ [] → Stands p r₀ (arrivals.foldl (arrive c p i) r) (known ++ delivered arrivals)
  | [], known, _, h, _ => (List.append_nil known).symm ▸ h
  | .answer :: arrivals, known, r, h, hknown => by
    rw [List.foldl_cons, h.answer_later hknown]
    exact run_settled hsame hreads h hknown
  | .batch authors :: arrivals, known, r, h, hknown => by
    have hmerged : Stands p r₀ (arrive c p i r (.batch authors)) (known ++ authors) :=
      h.merge hsame hreads authors
    have hne : known ++ authors ≠ [] := List.append_ne_nil_of_left_ne_nil hknown authors
    have hrest : Stands p r₀ (arrivals.foldl (arrive c p i) (arrive c p i r (.batch authors)))
        (known ++ authors ++ delivered arrivals) := run_settled hsame hreads hmerged hne
    rwa [List.append_assoc] at hrest

/-- A copy that waits counts the messages that arrive, and its own if the answer comes first. -/
theorem Stands.run (hsame : ∀ j, (p j).content = r₀.generation)
    (hreads : ∀ j, r₀.Reads c (p j)) :
    ∀ {arrivals : List (Arrival ι)} {r : Replica}, Stands p r₀ r [] →
      Stands p r₀ (arrivals.foldl (arrive c p i) r) (counts i arrivals)
  | [], _, h => h
  | .answer :: _, _, h => run_settled hsame hreads (h.answer_first (hsame i)) (List.cons_ne_nil i [])
  | .batch [] :: arrivals, r, h => by
    have hmerged : Stands p r₀ (arrive c p i r (.batch [])) [] := h.merge hsame hreads []
    show Stands p r₀ (arrivals.foldl (arrive c p i) (arrive c p i r (.batch [])))
      (counts i arrivals)
    exact run hsame hreads hmerged
  | .batch (j :: authors) :: _, r, h => by
    have hmerged : Stands p r₀ (arrive c p i r (.batch (j :: authors))) (j :: authors) :=
      h.merge hsame hreads (j :: authors)
    exact run_settled hsame hreads hmerged (List.cons_ne_nil j authors)

/-! ### Rivals -/

/-- Copies that wait, after each has pushed one and the same generation; `p i` is the message of device
`i`, stored under a hash that is new to all of them. The numbers in it have 64 bits. -/
structure Rivals (c : Cipher) (g : Generation) (r : ι → Replica) (p : ι → Post ι) : Prop where
  waits : ∀ i, (r i).phase = .sent ∧ (r i).generation = g
  secret : ∀ i j, (r i).secret = (r j).secret
  pushed : ∀ i, (p i).content = g ∧ ∃ (before : Replica) (nonce : Bytes) (push : Push),
    before.generation = g ∧ before.secret = (r i).secret ∧ nonce.length = Cipher.nonceLength ∧
      (before.push c nonce).1 = .ok push ∧ push.payload = (p i).payload
  words : g.Words ∧ (Generation.layout.put g).length < UInt64.size
  distinct : Function.Injective fun i => (p i).hash
  unknown : ∀ i j, (r i).current ≠ some (p j).hash ∧ (p j).hash ∉ (r i).retired.keys

namespace Rivals

variable {r : ι → Replica}

theorem content (h : Rivals c g r p) (i j : ι) : (p j).content = (r i).generation :=
  (h.pushed j).1.trans (h.waits i).2.symm

theorem reads (h : Rivals c g r p) (hc : c.Faithful) (i j : ι) : (r i).Reads c (p j) := by
  obtain ⟨hcontent, before, nonce, push, hgen, hsecret, hnonce, hpush, hpayload⟩ := h.pushed j
  have htopic : (r i).topic = before.topic :=
    congrArg Generation.topic ((h.waits i).2.trans hgen.symm)
  have hread := read?_push hc (hgen ▸ h.words.1) (hgen ▸ h.words.2) hnonce hpush htopic
    ((h.secret i j).trans hsecret.symm)
  rw [Reads, ← hpayload, hread, hgen, hcontent]

/-- What becomes of each copy. -/
theorem stands (h : Rivals c g r p) (hc : c.Faithful) (i : ι) (arrivals : List (Arrival ι)) :
    Stands p (r i) (arrivals.foldl (arrive c p i) (r i)) (counts i arrivals) :=
  Stands.run (h.content i) (h.reads hc i)
    ⟨rfl, rfl, .waiting (h.waits i).1 (fun j => (h.unknown i j).1) fun _ => id⟩

end Rivals

/-- Each copy that gets the others' messages, in any order and with repeats, is settled in the end, and
no copy retires the greatest of all hashes. It is the current hash of all; only its author may miss it,
and does so if neither the answer comes before all messages nor its own message is delivered to it.
Then the author has the greatest of the others' hashes. -/
theorem greatest_copy_survives_iff [Finite ι] [Nontrivial ι] (hc : c.Faithful) {r : ι → Replica}
    {arrivals : ι → List (Arrival ι)} (h : Rivals c g r p)
    (hall : ∀ i j, j ≠ i → j ∈ delivered (arrivals i)) :
    ∃ top, (∀ i, (p i).hash ≤ (p top).hash) ∧
      let last := fun i => (arrivals i).foldl (arrive c p i) (r i)
      (∀ i, (last i).phase = .settled ∧ (last i).generation = g ∧
        (p top).hash ∉ (last i).retired.keys ∧
        (i ≠ top → (last i).current = some (p top).hash)) ∧
      ((last top).current = some (p top).hash ↔
        answeredFirst (arrivals top) = true ∨ top ∈ delivered (arrivals top)) ∧
      ((last top).current ≠ some (p top).hash → ∃ second ≠ top,
        (∀ i ≠ top, (p i).hash ≤ (p second).hash) ∧
        (last top).current = some (p second).hash) := by
  obtain ⟨top, htop⟩ := Finite.exists_max fun i => (p i).hash
  have hstands := fun i => h.stands hc i (arrivals i)
  have hcounts : ∀ i j, j ≠ i → j ∈ counts i (arrivals i) := fun i j hj =>
    mem_counts.2 (.inr (hall i j hj))
  have hbacked := fun i => (hstands i).counted.settled
    (List.ne_nil_of_mem (hcounts i _ (exists_ne i).choose_spec))
  refine ⟨top, htop, fun i => ?_, ?_, fun hmiss => ?_⟩
  · obtain ⟨hset, best, hbest, hback, hretired⟩ := hbacked i
    refine ⟨hset, (hstands i).generation.trans (h.waits i).2, fun hh => ?_, fun hne => ?_⟩
    · rcases hretired _ hh with hold | hlt
      · exact (h.unknown i top).2 hold
      · exact (htop best).not_gt hlt
    · rw [hback, le_antisymm (htop best) (hbest.le top (hcounts i top hne.symm))]
  · obtain ⟨-, best, hbest, hback, -⟩ := hbacked top
    have hiff : (p best).hash = (p top).hash ↔ top ∈ counts top (arrivals top) :=
      ⟨fun he => h.distinct he ▸ hbest.mem, fun hmem => le_antisymm (htop best) (hbest.le top hmem)⟩
    rw [hback, Option.some.injEq, hiff, mem_counts, and_iff_left rfl]
  · obtain ⟨-, best, hbest, hback, -⟩ := hbacked top
    exact ⟨best, fun he => hmiss (he ▸ hback), fun i hi => hbest.le i (hcounts top i hi), hback⟩

/-- Two fresh copies that make the same entry and push it. -/
theorem rivals_two (c : Cipher) (hc : c.Faithful) :
    ∃ (g : Generation) (r : Bool → Replica) (p : Bool → Post Bool),
      Rivals c g r p ∧ (p false).hash < (p true).hash := by
  let edited : Replica := ((fresh .contacts default).change ⟨"a", some [1]⟩).2
  let sent : Replica :=
    { edited with phase := .sent, unsaved := true, inFlight := edited.retired.keys }
  let nonce : Bytes := List.replicate Cipher.nonceLength 0
  let hash : Bool → String := fun i => if i then "k" else "h"
  have hnonce : nonce.length = Cipher.nonceLength := List.length_replicate
  have hlen : (edited.payload c nonce).length ≤ edited.limit := payload_fits hc hnonce (by decide)
  have hlt : hash false < hash true := by decide
  have hpush := congrArg Prod.fst (push_of_edited c nonce (r := edited) rfl hlen)
  refine ⟨edited.generation, fun _ => sent,
    fun i => ⟨i, hash i, edited.payload c nonce, edited.generation⟩, ?_, hlt⟩
  refine ⟨fun _ => ⟨rfl, rfl⟩, fun _ _ => rfl, fun i => ⟨rfl, edited, nonce, _, rfl, rfl, hnonce,
    hpush, rfl⟩, ⟨⟨by decide, by decide⟩, by decide⟩, ?_, fun _ _ => ⟨?_, ?_⟩⟩
  · show Function.Injective hash
    decide
  · exact (Option.some_ne_none _).symm
  · exact List.not_mem_nil

/-- Each gets its answer, and then the other's message. -/
theorem greatest_copy_survives_answered_first :
    ∃ (g : Generation) (r : Bool → Replica) (p : Bool → Post Bool),
      Rivals .xchacha20Poly1305 g r p ∧ ∃ top, ∀ i,
        ([.answer, .batch [!i]].foldl (arrive .xchacha20Poly1305 p i) (r i)).current =
          some (p top).hash := by
  have hc : Cipher.xchacha20Poly1305.Faithful := Cipher.faithful_xchacha20Poly1305
  obtain ⟨g, r, p, h, -⟩ := rivals_two _ hc
  let arrivals : Bool → List (Arrival Bool) := fun i => [.answer, .batch [!i]]
  have hall : ∀ i j, j ≠ i → j ∈ delivered (arrivals i) := by decide
  obtain ⟨top, -, hlast, htop, -⟩ := greatest_copy_survives_iff hc h hall
  refine ⟨g, r, p, h, top, fun i => ?_⟩
  by_cases hi : i = top
  · subst hi
    exact htop.2 (.inl rfl)
  · exact (hlast i).2.2.2 hi

/-- Copies of one generation need not agree on a message, although each gets the answer to its own and
all of the others'. -/
theorem not_copies_agree :
    ¬ ∀ (g : Generation) (r : Bool → Replica) (p : Bool → Post Bool)
      (arrivals : Bool → List (Arrival Bool)), Rivals .xchacha20Poly1305 g r p →
      (∀ i, .answer ∈ arrivals i) → (∀ i j, j ∈ delivered (arrivals i) ↔ j ≠ i) →
        ∃ hash, ∀ i, ((arrivals i).foldl (arrive .xchacha20Poly1305 p i) (r i)).current =
          some hash := by
  intro hclaim
  have hc : Cipher.xchacha20Poly1305.Faithful := Cipher.faithful_xchacha20Poly1305
  obtain ⟨g, r, p, h, hlt⟩ := rivals_two _ hc
  -- The answer to the greater message comes late.
  let arrivals : Bool → List (Arrival Bool) := fun i =>
    if i then [.batch [false], .answer] else [.answer, .batch [true]]
  have hanswered : ∀ i, .answer ∈ arrivals i := by
    intro i
    cases i <;> simp [arrivals]
  obtain ⟨hash, hagree⟩ := hclaim g r p arrivals h hanswered (by decide)
  obtain ⟨-, early, hearly, hback, -⟩ :=
    (h.stands hc false (arrivals false)).counted.settled (List.cons_ne_nil _ _)
  obtain ⟨-, late, hlate, hback', -⟩ :=
    (h.stands hc true (arrivals true)).counted.settled (List.cons_ne_nil _ _)
  obtain rfl : late = false := List.mem_singleton.1 hlate.mem
  have hle : (p true).hash ≤ (p early).hash := hearly.le true (by decide)
  have hsame : (p early).hash = (p false).hash :=
    Option.some.inj ((hback.symm.trans (hagree false)).trans ((hagree true).symm.trans hback'))
  exact (hlt.trans_le hle).ne hsame.symm

end Replica

end AccountSync
