import AccountSync.Proofs.Replica.Retired
import AccountSync.Proofs.Swarm.Settled
/-!
What the swarm is asked to delete. A hash that a push names is that of a stored message, and the
copy that is pushed holds all its writes, unless the copy has refused the message as older than its
own generation (`Swarm.superseded_held_or_stale`). A refused message is deleted all the same
(`Swarm.superseded_stale`); its writes are still in the copy of its author.
-/

namespace AccountSync

variable {ι : Type}

namespace Swarm

open Replica

variable {c : Cipher} {topic : Topic} {secret : Secret} {limit : Nat}

/-! ### What a copy keeps to -/

/-- A copy has all writes of the message stored under a hash, or has merged the message and is in a
later generation. -/
def Answers (posts merged : List (Post ι)) (r : Replica) (hash : String) : Prop :=
  ∃ p ∈ posts, p.hash = hash ∧ (r.Holds p.content ∨ p ∈ merged ∧ p.content.seq < r.seq)

/-- What holds of a copy that has merged the messages in `merged` and has accepted the hashes in
`took`. -/
structure Accounted (posts merged : List (Post ι)) (took : List String) (r : Replica) : Prop where
  accepted : ∀ hash ∈ took, ∃ p ∈ posts, p.hash = hash ∧ r.Holds p.content
  retired : ∀ hash ∈ r.retired.keys, Answers posts merged r hash

section

variable {posts merged : List (Post ι)} {took : List String} {i : ι} {r r' : Replica}

theorem Answers.mono {posts' merged' : List (Post ι)} {hash : String}
    (h : Answers posts merged r hash) (hposts : ∀ p ∈ posts, p ∈ posts')
    (hmerged : ∀ p ∈ merged, p ∈ merged')
    (hholds : ∀ p ∈ posts, r.Holds p.content → r'.Holds p.content) (hseq : r.seq ≤ r'.seq) :
    Answers posts' merged' r' hash := by
  obtain ⟨p, hp, hhash, hkept⟩ := h
  refine ⟨p, hposts p hp, hhash, hkept.imp (hholds p hp) fun ⟨hm, hlt⟩ => ?_⟩
  exact ⟨hmerged p hm, hlt.trans_le hseq⟩

theorem Accounted.fresh : Accounted ([] : List (Post ι)) [] [] (.fresh topic secret limit) where
  accepted _ h := absurd h List.not_mem_nil
  retired _ h := absurd h List.not_mem_nil

theorem Accounted.post (h : Accounted posts merged took r) (p : Post ι) :
    Accounted (p :: posts) merged took r where
  accepted hash hh := by
    obtain ⟨q, hq, hqhash, hholds⟩ := h.accepted hash hh
    exact ⟨q, List.mem_cons_of_mem p hq, hqhash, hholds⟩
  retired hash hh :=
    (h.retired hash hh).mono (fun _ => List.mem_cons_of_mem p) (fun _ => id) (fun _ _ => id) le_rfl

/-- A settled copy holds the message that is stored under its current hash. -/
theorem Coherent.answers_current (h : Coherent topic secret limit posts i merged r)
    (hposts : Posted c topic secret limit posts) {hash : String} (hcur : r.current = some hash) :
    ∃ p ∈ posts, p.hash = hash ∧ r.Holds p.content := by
  obtain ⟨-, p, hp, rfl, -⟩ := h.current_content hcur
  exact ⟨p, hp, rfl, h.holds_of_current hposts hp hcur⟩

/-- A step that retires at most the current hash keeps the account. -/
theorem Accounted.step (h : Accounted posts merged took r)
    (hcoh : Coherent topic secret limit posts i merged r)
    (hposts : Posted c topic secret limit posts)
    (hholds : ∀ p ∈ posts, r.Holds p.content → r'.Holds p.content) (hseq : r.seq ≤ r'.seq)
    (hretired : ∀ hash ∈ r'.retired.keys, r.current = some hash ∨ hash ∈ r.retired.keys) :
    Accounted posts merged took r' where
  accepted hash hh := by
    obtain ⟨p, hp, hhash, hp'⟩ := h.accepted hash hh
    exact ⟨p, hp, hhash, hholds p hp hp'⟩
  retired hash hh := by
    rcases hretired hash hh with hcur | hold
    · obtain ⟨p, hp, hhash, hp'⟩ := hcoh.answers_current hposts hcur
      exact ⟨p, hp, hhash, .inl (hholds p hp hp')⟩
    · exact (h.retired hash hold).mono (fun _ => id) (fun _ => id) hholds hseq

theorem Accounted.change (h : Accounted posts merged took r)
    (hcoh : Coherent topic secret limit posts i merged r)
    (hposts : Posted c topic secret limit posts)
    (what : Change) : Accounted posts merged took (r.change what).2 := by
  by_cases heff : r.Effective what
  · rw [change_of_effective heff]
    exact h.step hcoh hposts (fun p hp hr => hr.write (hposts.stamps p hp) _ _)
      (seq_le_write r _ _) fun _ => mem_retired_of_write
  · rw [change_of_not_effective heff]
    exact h

theorem Accounted.push (h : Accounted posts merged took r)
    (hcoh : Coherent topic secret limit posts i merged r)
    (hposts : Posted c topic secret limit posts)
    (nonce : Bytes) : Accounted posts merged took (r.push c nonce).2 :=
  have hgrows := push_grows c nonce r
  h.step hcoh hposts (fun _ _ hr => hr.grow hgrows) hgrows.seq fun _ hh =>
    .inr (mem_retired_of_push (fun hs => (hcoh.pending hs).2) hh)

theorem Accounted.confirm (h : Accounted posts merged took r)
    (hcoh : Coherent topic secret limit posts i merged r)
    (hposts : Posted c topic secret limit posts)
    (seq : Int) (answer : String) : Accounted posts merged took (r.confirm seq answer).2 :=
  have hgrows := confirm_grows r seq answer
  h.step hcoh hposts (fun _ _ hr => hr.grow hgrows) hgrows.seq fun _ hh =>
    .inr (mem_retired_of_confirm hh)

/-- A copy holds what it accepts, and is in a later generation than what it refuses. -/
theorem Coherent.take_holds_or_lt (h : Coherent topic secret limit posts i merged r)
    (hposts : Posted c topic secret limit posts) {p : Post ι} (hp : p ∈ posts) :
    (r.take p.hash p.content).1 = true ∧ (r.take p.hash p.content).2.Holds p.content ∨
      (r.take p.hash p.content).1 = false ∧
        p.content.seq < (r.take p.hash p.content).2.seq := by
  have ht := take_took r p.hash p.content
  generalize r.take p.hash p.content = x at ht ⊢
  cases ht with
  | known hcur => exact .inl ⟨rfl, h.holds_of_current hposts hp hcur⟩
  | stale hlt => exact .inr ⟨rfl, hlt⟩
  | copied hseq hentries =>
    refine .inl ⟨rfl, ?_, ?_, fun he => ?_⟩
    · rw [takeCopy_seq, hseq]
    · rw [takeCopy_entries, hentries]
    · rw [takeCopy_phase] at he
      cases he
  | adopted => exact .inl ⟨rfl, le_rfl, le_rfl, fun he => by rw [adopt_phase] at he; cases he⟩
  | combined =>
    have hlt : p.content.seq < max r.seq p.content.seq + 1 := by omega
    exact .inl ⟨rfl, hlt.le, le_sup_right, fun _ => hlt⟩

theorem Accounted.take (h : Accounted posts merged took r)
    (hcoh : Coherent topic secret limit posts i merged r)
    (hposts : Posted c topic secret limit posts)
    {p : Post ι} (hp : p ∈ posts) :
    Accounted posts (merged ++ [p])
      (took ++ if (r.take p.hash p.content).1 then [p.hash] else [])
      (r.take p.hash p.content).2 := by
  have hgrows := take_grows r p.hash p.content
  have hout := hcoh.take_holds_or_lt hposts hp
  have hmem : p ∈ merged ++ [p] := List.mem_append_right _ List.mem_cons_self
  constructor
  · intro hash hh
    rcases List.mem_append.1 hh with hh | hh
    · obtain ⟨q, hq, hhash, hq'⟩ := h.accepted hash hh
      exact ⟨q, hq, hhash, hq'.grow hgrows⟩
    · rcases hout with ⟨htook, hholds⟩ | ⟨hrefused, -⟩
      · rw [if_pos htook, List.mem_singleton] at hh
        exact ⟨p, hp, hh.symm, hholds⟩
      · rw [hrefused] at hh
        exact absurd hh List.not_mem_nil
  · intro hash hh
    rcases mem_retired_of_take hh with rfl | hcur | hold
    · exact ⟨p, hp, rfl, hout.imp And.right fun hrefused => ⟨hmem, hrefused.2⟩⟩
    · obtain ⟨q, hq, hhash, hq'⟩ := hcoh.answers_current hposts hcur
      exact ⟨q, hq, hhash, .inl (hq'.grow hgrows)⟩
    · exact (h.retired hash hold).mono (fun _ => id) (fun _ => List.mem_append_left _)
        (fun _ _ hq => hq.grow hgrows) hgrows.seq

/-- A merge accepts messages one by one. -/
theorem Accounted.merge (hposts : Posted c topic secret limit posts) :
    ∀ {batch merged : List (Post ι)} {took : List String} {r : Replica}, (∀ p ∈ batch, p ∈ posts) →
      Coherent topic secret limit posts i merged r → Accounted posts merged took r →
      Accounted posts (merged ++ batch) (took ++ (r.merge c (batch.map Post.stored)).1)
        (r.merge c (batch.map Post.stored)).2
  | [], merged, took, r, _, _, h => by
    rw [List.append_nil]
    exact (List.append_nil took).symm ▸ h
  | p :: batch, merged, took, r, hbatch, hcoh, h => by
    have hp := hbatch p List.mem_cons_self
    have htake : r.takePayload c p.hash p.payload = r.take p.hash p.content := by
      rw [takePayload, hposts.reads p hp r hcoh.fixed]
    have hrest := merge hposts (fun q hq => hbatch q (List.mem_cons_of_mem p hq))
      (hcoh.take hposts hp) (h.take hcoh hposts hp)
    rw [List.append_assoc, List.append_assoc] at hrest
    rw [List.map_cons, Post.stored, merge_cons, htake]
    cases hanswer : (r.take p.hash p.content).1 with
    | true => simpa [hanswer] using hrest
    | false => simpa [hanswer] using hrest

end

/-! ### Runs -/

variable [DecidableEq ι] {s s' : Swarm ι} {took : ι → List String}

/-- A run, and the hashes that the merges of each device have answered as accepted. -/
inductive History (c : Cipher) (topic : Topic) (secret : Secret) (limit : Nat) :
    Swarm ι → (ι → List String) → Prop where
  | start : History c topic secret limit (start topic secret limit) fun _ => []
  | merge {s : Swarm ι} {took : ι → List String} (i : ι) (batch : List (Post ι)) :
      History c topic secret limit s took → (∀ p ∈ batch, p ∈ s.posts) →
      History c topic secret limit
        { s.put i ((s.replica i).merge c (batch.map Post.stored)).2 with
          merged := Function.update s.merged i (s.merged i ++ batch) }
        (Function.update took i
          (took i ++ ((s.replica i).merge c (batch.map Post.stored)).1))
  | other {s s' : Swarm ι} {took : ι → List String} :
      History c topic secret limit s took → Next c s s' → s'.merged = s.merged →
      History c topic secret limit s' took

theorem History.reachable (h : History c topic secret limit s took) :
    Reachable c topic secret limit s := by
  induction h with
  | start => exact .start
  | merge i batch _ hbatch ih => exact .next ih (.merge i batch hbatch)
  | other _ hn _ ih => exact .next ih hn

/-- Every run has a history. -/
theorem Reachable.history (h : Reachable c topic secret limit s) :
    ∃ took, History c topic secret limit s took := by
  induction h with
  | start => exact ⟨_, .start⟩
  | next _ hn ih =>
    obtain ⟨took, ih⟩ := ih
    cases hn with
    | merge i batch hbatch => exact ⟨_, .merge i batch ih hbatch⟩
    | change i what => exact ⟨took, .other ih (.change i what) rfl⟩
    | lose i nonce hneeds => exact ⟨took, .other ih (.lose i nonce hneeds) rfl⟩
    | store i nonce push hash hneeds hnonce hpush hfresh =>
      exact ⟨took, .other ih (.store i nonce push hash hneeds hnonce hpush hfresh) rfl⟩
    | confirm p hp => exact ⟨took, .other ih (.confirm p hp) rfl⟩

/-- Whatever the devices do, each accounts for the hashes that it accepts and retires. -/
theorem History.accounted (hc : c.Faithful) (hlimit : limit < UInt64.size)
    (h : History c topic secret limit s took)
    (hsmall : ∀ i, (s.replica i).seq < 9223372036854775808) :
    ∀ i, Accounted s.posts (s.merged i) (took i) (s.replica i) := by
  induction h with
  | start => exact fun _ => .fresh
  | merge i batch hrun hbatch ih =>
    have hn := Next.merge (c := c) i batch hbatch
    have hsmall' := fun j => (hn.seq_le j).trans_lt (hsmall j)
    have hsound := hrun.reachable.sound hc hlimit hsmall'
    intro j
    by_cases hj : j = i
    · subst hj
      simpa [put] using Accounted.merge hsound.posted hbatch (hsound.copies j) (ih hsmall' j)
    · simpa [put, hj] using ih hsmall' j
  | @other s s' took hrun hn hmerged ih =>
    have hsmall' := fun j => (hn.seq_le j).trans_lt (hsmall j)
    have hsound := hrun.reachable.sound hc hlimit hsmall'
    have hposts := hsound.posted
    have ih := ih hsmall'
    rw [hmerged]
    cases hn with
    | change i what =>
      exact forall_put (P := fun j => Accounted s.posts (s.merged j) (took j))
        ((ih i).change (hsound.copies i) hposts what) fun j _ => ih j
    | lose i nonce =>
      exact forall_put (P := fun j => Accounted s.posts (s.merged j) (took j))
        ((ih i).push (hsound.copies i) hposts nonce) fun j _ => ih j
    | store i nonce push hash =>
      exact forall_put
        (P := fun j => Accounted (⟨i, hash, push.payload, (s.replica i).generation⟩ :: s.posts)
          (s.merged j) (took j))
        (((ih i).push (hsound.copies i) hposts nonce).post _) fun j _ => (ih j).post _
    | confirm p hp =>
      exact forall_put (P := fun j => Accounted s.posts (s.merged j) (took j))
        ((ih p.author).confirm (hsound.copies p.author) hposts _ _) fun j _ => ih j
    | merge i batch =>
      -- A merge that is not counted as one is of no messages.
      have hnone : s.merged i ++ batch = s.merged i := by simpa using congrFun hmerged i
      obtain rfl := List.append_right_eq_self.1 hnone
      exact forall_put (P := fun j => Accounted s.posts (s.merged j) (took j)) (ih i)
        fun j _ => ih j

/-- Every hash that a push names is that of a stored message. The copy that is pushed has all its
writes, or it is another device's message, which the copy has merged and has never accepted and
which is older than the push. Its author still has all its writes. -/
theorem superseded_held_or_stale (hc : c.Faithful) (hlimit : limit < UInt64.size)
    (hs : History c topic secret limit s took)
    (hsmall : ∀ i, (s.replica i).seq < 9223372036854775808) (i : ι) {nonce : Bytes}
    (hnonce : nonce.length = Cipher.nonceLength) {push : Push}
    (hpush : ((s.replica i).push c nonce).1 = .ok push) :
    (∀ j, (s.replica j).read? c push.payload = some (s.replica i).generation) ∧
    push.seq = (s.replica i).seq ∧
    ∀ hash ∈ push.superseded, ∃ p ∈ s.posts, p.hash = hash ∧
      (∀ j, (s.replica j).read? c p.payload = some p.content) ∧
      (s.replica p.author).entries.join p.content.entries = (s.replica p.author).entries ∧
      ((s.replica i).entries.join p.content.entries = (s.replica i).entries ∨
        p.author ≠ i ∧ p ∈ s.merged i ∧ hash ∉ took i ∧ p.content.seq < push.seq) := by
  have h := hs.reachable.sound hc hlimit hsmall
  have hi := h.copies i
  have hheld : ∀ {j} {p : Post ι}, (s.replica j).Holds p.content →
      (s.replica j).entries.join p.content.entries = (s.replica j).entries :=
    fun hholds => sup_eq_left.2 hholds.entries
  have haccounted := hs.accounted hc hlimit hsmall i
  obtain ⟨hseq, hsuperseded⟩ : push.seq = (s.replica i).seq ∧
      push.superseded = ((s.replica i).push c nonce).2.retired.keys := by
    have hp := push_pushed c nonce (s.replica i)
    generalize (s.replica i).push c nonce = x at hp hpush
    cases hp with
    | refused => cases hpush
    | made _ _ _ _ _ _ _ _ _ hkeys =>
      obtain rfl := Except.ok.inj hpush
      exact ⟨rfl, hkeys⟩
  refine ⟨fun j => hi.read?_push hc hlimit (hsmall i) hnonce hpush (h.copies j).fixed, hseq,
    fun hash hh => ?_⟩
  rw [hsuperseded] at hh
  obtain ⟨p, hp, hhash, hkept⟩ :=
    haccounted.retired hash (mem_retired_of_push (fun hs => (hi.pending hs).2) hh)
  refine ⟨p, hp, hhash, fun j => h.posted.reads p hp _ (h.copies j).fixed,
    hheld ((h.copies p.author).authored p hp rfl), ?_⟩
  by_cases hholds : (s.replica i).Holds p.content
  · exact .inl (hheld hholds)
  · obtain ⟨hmerged, hlt⟩ := hkept.resolve_left hholds
    refine .inr ⟨fun hauthor => hholds (hi.authored p hp hauthor), hmerged, fun htook => hholds ?_,
      hseq ▸ hlt⟩
    obtain ⟨q, hq, hqhash, hq'⟩ := haccounted.accepted hash htook
    rwa [h.posted.unique p hp q hq (hhash.trans hqhash.symm)]

/-- A copy opens its second generation of edits, and then merges the first message of another copy.
-/
theorem history_stale_post (c : Cipher) (hc : c.Faithful) :
    ∃ (s : Swarm Bool) (took : Bool → List String) (p : Post Bool) (nonce : Bytes) (push : Push),
      History c .contacts default Replica.defaultLimit s took ∧ s.posts = [p] ∧ p.author = false ∧
        nonce.length = Cipher.nonceLength ∧ ((s.replica true).push c nonce).1 = .ok push ∧
        p.hash ∈ push.superseded ∧ (s.replica true).seq = 2 ∧ (s.replica false).seq = 1 ∧
        (s.replica true).entries.join p.content.entries ≠ (s.replica true).entries := by
  let fresh : Replica := .fresh .contacts default
  let nonce : Bytes := List.replicate Cipher.nonceLength 0
  have hnonce : nonce.length = Cipher.nonceLength := List.length_replicate
  let first : Replica := (fresh.change ⟨"a", some [1]⟩).2
  let lost : Replica :=
    { first with phase := .sent, unsaved := true, inFlight := first.retired.keys }
  let second : Replica := (lost.change ⟨"a", some [2]⟩).2
  let other : Replica := (fresh.change ⟨"b", some [3]⟩).2
  let stored : Replica :=
    { other with phase := .sent, unsaved := true, inFlight := other.retired.keys }
  let p : Post Bool := ⟨false, "h", other.payload c nonce, other.generation⟩
  let last : Replica := { second with retired := second.retired.add "h", unsaved := true }
  have hlost := push_of_edited c nonce (r := first) (by decide) (payload_fits hc hnonce (by decide))
  have hstored := push_of_edited c nonce (r := other) (by decide) (payload_fits hc hnonce (by decide))
  have hlast := push_of_edited c nonce (r := last) (by decide) (payload_fits hc hnonce (by decide))
  have hmerged : second.merge c [p.stored] = ([], last) := by
    have hread : second.read? c p.payload = some p.content :=
      read?_payload hc rfl hnonce ⟨by decide, by decide⟩ (by decide)
    have htake : second.take "h" other.generation = (false, last) := by decide
    rw [Post.stored, merge_cons, takePayload, hread]
    show (if (second.take "h" other.generation).1 then _ else _, _) = _
    rw [htake]
    rfl
  let s₁ : Swarm Bool := (start .contacts default defaultLimit).put true first
  let s₂ : Swarm Bool := (s₁.put true lost).put true second
  let s₃ : Swarm Bool := s₂.put false other
  let s₄ : Swarm Bool := { s₃.put false stored with posts := [p] }
  let s₅ : Swarm Bool := { s₄.put true last with merged := Function.update s₄.merged true [p] }
  have h₁ : History c .contacts default defaultLimit s₁ fun _ => [] :=
    History.start.other (.change true ⟨"a", some [1]⟩) rfl
  have h₂ : History c .contacts default defaultLimit s₂ fun _ => [] := by
    have hlose : Next c s₁ (s₁.put true (first.push c nonce).2) := .lose true nonce (by decide)
    rw [hlost] at hlose
    exact (h₁.other hlose rfl).other (.change true ⟨"a", some [2]⟩) rfl
  have h₃ : History c .contacts default defaultLimit s₃ fun _ => [] :=
    h₂.other (.change false ⟨"b", some [3]⟩) rfl
  have hneeds : other.needsPush = true := by decide
  have h₄ : History c .contacts default defaultLimit s₄ fun _ => [] := by
    have hpushed : (other.push c nonce).1 =
        .ok ⟨other.payload c nonce, other.seq, other.retired.keys⟩ := congrArg Prod.fst hstored
    have hstore : Next c s₃ { s₃.put false (other.push c nonce).2 with posts := [p] } :=
      .store (s := s₃) false nonce _ "h" hneeds hnonce hpushed
        fun _ hq => absurd hq List.not_mem_nil
    rw [hstored] at hstore
    exact h₃.other hstore rfl
  have h₅ : History c .contacts default defaultLimit s₅
      (Function.update (fun _ => []) true []) := by
    have hmerge : History c .contacts default defaultLimit
        { s₄.put true (second.merge c [p.stored]).2 with
          merged := Function.update s₄.merged true [p] }
        (Function.update (fun _ => []) true (second.merge c [p.stored]).1) :=
      h₄.merge true [p] fun _ => id
    rwa [hmerged] at hmerge
  have hretired : "h" ∈ last.retired.keys := by decide
  have hlacks : last.entries.join other.entries ≠ last.entries := by decide
  exact ⟨s₅, _, p, nonce, _, h₅, rfl, rfl, hnonce, congrArg Prod.fst hlast, hretired, rfl, rfl,
    hlacks⟩

/-- The copy asks to delete the message that it has refused; the message's author still has its
writes. -/
theorem superseded_held_or_stale_refused :
    ∃ (s : Swarm Bool) (p : Post Bool) (nonce : Bytes) (push : Push), s.posts = [p] ∧
      ((s.replica true).push .xchacha20Poly1305 nonce).1 = .ok push ∧ p.hash ∈ push.superseded ∧
      p.author = false ∧ p ∈ s.merged true ∧ p.content.seq < push.seq ∧
      (s.replica false).entries.join p.content.entries = (s.replica false).entries := by
  obtain ⟨s, took, p, nonce, push, hs, hposts, hauthor, hnonce, hpush, hhash, hmine, htheirs,
    hlacks⟩ := history_stale_post .xchacha20Poly1305 Cipher.faithful_xchacha20Poly1305
  have hsmall : ∀ i, (s.replica i).seq < 9223372036854775808 := by
    intro i
    cases i with
    | true => rw [hmine]; decide
    | false => rw [htheirs]; decide
  obtain ⟨-, -, hsuperseded⟩ := superseded_held_or_stale Cipher.faithful_xchacha20Poly1305
    (by decide) hs hsmall true hnonce hpush
  obtain ⟨q, hq, -, -, hkept, hheld⟩ := hsuperseded p.hash hhash
  obtain rfl : q = p := by simpa [hposts] using hq
  obtain ⟨-, hmerged, -, hlt⟩ := hheld.resolve_left hlacks
  exact ⟨s, q, nonce, push, hposts, hpush, hhash, hauthor, hmerged, hlt, hauthor ▸ hkept⟩

/-- A push may ask to delete a message whose writes are not in what is pushed: not every hash that a
push names is that of a message that the pushed copy holds. -/
theorem superseded_stale :
    ¬ ∀ s : Swarm Bool, Reachable .xchacha20Poly1305 .contacts default Replica.defaultLimit s →
      ∀ i nonce push, nonce.length = Cipher.nonceLength →
        ((s.replica i).push .xchacha20Poly1305 nonce).1 = .ok push →
          ∀ hash ∈ push.superseded, ∃ p ∈ s.posts, p.hash = hash ∧
            (s.replica i).entries.join p.content.entries = (s.replica i).entries := by
  intro hclaim
  obtain ⟨s, took, p, nonce, push, hs, hposts, -, hnonce, hpush, hhash, -, -, hlacks⟩ :=
    history_stale_post .xchacha20Poly1305 Cipher.faithful_xchacha20Poly1305
  obtain ⟨q, hq, -, hheld⟩ := hclaim s hs.reachable true nonce push hnonce hpush p.hash hhash
  obtain rfl : q = p := by simpa [hposts] using hq
  exact hlacks hheld

end Swarm

end AccountSync
