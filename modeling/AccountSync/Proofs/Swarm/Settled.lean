import Mathlib.Logic.Relation
import AccountSync.Proofs.Swarm.Steps
/-!
What it means that a copy is settled. A settled copy is empty, or it is what the swarm stores under
its current hash. It becomes settled by an answer of the swarm only if the stored message is what
the copy still holds: an edit opens a generation above all that was published, and no later answer
to an earlier message takes effect (`Swarm.confirm_of_edited`).
-/

namespace AccountSync

namespace Replica

variable {r : Replica} {g : Generation}

/-- A write to a copy that holds a generation leaves it in a later one. -/
theorem Holds.seq_lt_write (h : r.Holds g) (key : String) (value : Option Bytes) :
    g.seq < (r.write key value).seq := by
  have hw := write_wrote r key value
  generalize r.write key value = r' at hw ⊢
  cases hw with
  | within hp => exact h.edited hp
  | opening _ _ _ _ hseq =>
    have hle := h.seq
    omega

/-- The swarm's answer to an earlier generation changes nothing. -/
theorem confirm_of_seq_ne {seq : Int} {hash : String} (h : seq ≠ r.seq) :
    r.confirm seq hash = (false, r) := by
  rw [confirm, if_neg fun hs => h hs.2]

end Replica

namespace Swarm

variable {ι : Type} [DecidableEq ι] {c : Cipher} {topic : Topic} {secret : Secret} {limit : Nat}
  {s s' : Swarm ι}

/-- No sequence number decreases in a run. -/
theorem seq_le_of_run (h : Relation.ReflTransGen (Next c) s s') (i : ι) :
    (s.replica i).seq ≤ (s'.replica i).seq := by
  induction h with
  | refl => exact le_rfl
  | tail _ hn ih => exact ih.trans (hn.seq_le i)

/-- Once a copy was edited, no answer to a message of before takes effect. -/
theorem Sound.confirm_of_edited (h : Sound c topic secret limit s) {p : Post ι} (hp : p ∈ s.posts)
    {what : Change} (heff : (s.replica p.author).Effective what)
    (hrun : Relation.ReflTransGen (Next c)
      (s.put p.author ((s.replica p.author).change what).2) s') :
    (s'.replica p.author).confirm p.content.seq p.hash = (false, s'.replica p.author) := by
  have hheld : (s.replica p.author).Holds p.content := (h.copies p.author).authored p hp rfl
  have hedit : p.content.seq <
      ((s.put p.author ((s.replica p.author).change what).2).replica p.author).seq := by
    have hlt := hheld.seq_lt_write what.key what.value
    simpa [put, Replica.change_of_effective heff] using hlt
  exact Replica.confirm_of_seq_ne (hedit.trans_le (seq_le_of_run hrun p.author)).ne

omit [DecidableEq ι] in
/-- An answer that takes effect is about what the copy holds. -/
theorem Sound.confirm_applied (h : Sound c topic secret limit s) {p : Post ι} (hp : p ∈ s.posts)
    {r : Replica} (happlied : (s.replica p.author).confirm p.content.seq p.hash = (true, r)) :
    r.phase = .settled ∧ r.current = some p.hash ∧
      r.generation = (s.replica p.author).generation ∧ p.content = r.generation := by
  have hc := Replica.confirm_confirmed (s.replica p.author) p.content.seq p.hash
  rw [happlied] at hc
  cases hc with
  | applied _ hsent hpseq hphase hseq hentries hcurrent _ hfixed =>
    have hgen := Replica.generation_congr hfixed hseq hentries
    exact ⟨hphase, hcurrent, hgen, by
      rw [hgen]
      exact (h.copies p.author).sent p hp rfl hsent hpseq⟩

/-- A settled copy is empty, or what the swarm stores under its current hash. An answer of the swarm
that settles a copy is about a message that says what the copy holds; so no answer to a message
settles a copy that was edited after that message. -/
theorem settled_is_stored (hc : c.Faithful) (hlimit : limit < UInt64.size)
    (hs : Reachable c topic secret limit s)
    (hsmall : ∀ i, (s.replica i).seq < 9223372036854775808) :
    (∀ i, (s.replica i).phase = .settled →
      ((s.replica i).seq = 0 ∧ (s.replica i).entries = ∅ ∧ (s.replica i).current = none) ∨
        ∃ p ∈ s.posts, (s.replica i).current = some p.hash ∧
          ∀ j, (s.replica j).read? c p.payload = some (s.replica i).generation) ∧
    (∀ p ∈ s.posts, ∀ r, (s.replica p.author).confirm p.content.seq p.hash = (true, r) →
      r.needsPush = false ∧ r.current = some p.hash ∧
        r.generation = (s.replica p.author).generation ∧
        ∀ j, (s.replica j).read? c p.payload = some r.generation) ∧
    ∀ p ∈ s.posts, ∀ what, (s.replica p.author).Effective what → ∀ s',
      Relation.ReflTransGen (Next c) (s.put p.author ((s.replica p.author).change what).2) s' →
        (s'.replica p.author).confirm p.content.seq p.hash = (false, s'.replica p.author) := by
  have h := hs.sound hc hlimit hsmall
  have hreads : ∀ p ∈ s.posts, ∀ j, (s.replica j).read? c p.payload = some p.content :=
    fun p hp j => h.posted.reads p hp _ (h.copies j).fixed
  refine ⟨fun i hset => ?_, fun p hp r happlied => ?_, fun p hp what heff s' hrun =>
    h.confirm_of_edited hp heff hrun⟩
  · rcases (h.copies i).settled hset with hempty | ⟨p, hp, hback, hgen⟩
    · exact .inl hempty
    · exact .inr ⟨p, hp, hback, fun j => hgen ▸ hreads p hp j⟩
  · obtain ⟨hphase, hcurrent, hsame, hgen⟩ := h.confirm_applied hp happlied
    exact ⟨by simp [Replica.needsPush, hphase], hcurrent, hsame, fun j => hgen ▸ hreads p hp j⟩

/-- A device edits its copy and pushes it, and the swarm stores the message. -/
theorem Reachable.exists_publish (h : Reachable c topic secret limit s) (i : ι) (what : Change)
    (hash : String) {nonce : Bytes} {r : Replica} (hr : ((s.replica i).change what).2 = r)
    (hphase : r.phase = .edited) (hlen : (r.payload c nonce).length ≤ r.limit)
    (hnonce : nonce.length = Cipher.nonceLength) (hfresh : ∀ p ∈ s.posts, p.hash ≠ hash) :
    ∃ s', Reachable c topic secret limit s' ∧
      s'.replica = Function.update s.replica i
        { r with phase := .sent, unsaved := true, inFlight := r.retired.keys } ∧
      s'.posts = ⟨i, hash, r.payload c nonce, r.generation⟩ :: s.posts := by
  have hput : (s.put i ((s.replica i).change what).2).replica i = r :=
    (Function.update_self ..).trans hr
  have hpush := Replica.push_of_edited c nonce hphase hlen
  have hneeds : r.needsPush = true := by
    rw [Replica.needsPush, hphase]
    rfl
  rw [← hput] at hneeds hpush
  have hstore := Next.store i nonce _ hash hneeds hnonce (congrArg Prod.fst hpush) hfresh
  rw [hpush, hput] at hstore
  exact ⟨_, (h.next (.change i what)).next hstore, Function.update_idem (f := s.replica) _ _, rfl⟩

/-- A fresh copy makes an entry and publishes it. -/
theorem reachable_one_post (c : Cipher) (hc : c.Faithful) :
    ∃ (s : Swarm Bool) (p : Post Bool),
      Reachable c .contacts default Replica.defaultLimit s ∧ s.posts = [p] ∧ p.author = true ∧
        p.content.seq = 1 ∧ (s.replica true).phase = .sent ∧ (s.replica true).seq = 1 ∧
        (s.replica true).get "a" = some [1] ∧
        s.replica false = .fresh .contacts default := by
  let fresh : Replica := .fresh .contacts default
  let r : Replica := (fresh.change ⟨"a", some [1]⟩).2
  let nonce : Bytes := List.replicate Cipher.nonceLength 0
  have hneeds : r.needsPush = true := by decide
  have hnonce : nonce.length = Cipher.nonceLength := List.length_replicate
  have hlen : (r.payload c nonce).length ≤ r.limit := Replica.payload_fits hc hnonce (by decide)
  obtain ⟨push, hpush⟩ : ∃ push, (r.push c nonce).1 = .ok push :=
    ⟨_, by simp only [Replica.push, if_neg (Nat.not_lt.2 hlen)]; rfl⟩
  obtain ⟨-, -, hsent, hgen⟩ := Replica.push_sent hneeds hpush
  have hedited : Reachable c .contacts default Replica.defaultLimit
      ((start .contacts default Replica.defaultLimit : Swarm Bool).put true r) :=
    .next .start (.change true _)
  have hstored := Reachable.next hedited
    (.store true nonce push "h" hneeds hnonce hpush (by simp [put, start]))
  refine ⟨_, _, hstored, rfl, rfl, rfl, hsent, congrArg Generation.seq hgen, ?_, rfl⟩
  exact congrArg (fun g => g.entries.value? "a") hgen

/-- The author of the only message learns that it is stored, or edits its copy before it does. -/
theorem settled_is_stored_one_post :
    ∃ (s : Swarm Bool) (p : Post Bool), s.posts = [p] ∧
      (∃ r, (s.replica true).confirm 1 p.hash = (true, r) ∧ r.current = some p.hash ∧
        (s.replica false).read? .xchacha20Poly1305 p.payload = some r.generation) ∧
      ((s.put true ((s.replica true).change ⟨"a", none⟩).2).replica true).confirm 1 p.hash =
        (false, (s.put true ((s.replica true).change ⟨"a", none⟩).2).replica true) := by
  obtain ⟨s, p, hs, hposts, hauthor, hpseq, hsent, hseq, hget, hother⟩ :=
    reachable_one_post .xchacha20Poly1305 Cipher.faithful_xchacha20Poly1305
  have hsmall : ∀ i, (s.replica i).seq < 9223372036854775808 := by
    intro i
    cases i with
    | true => rw [hseq]; decide
    | false => rw [hother]; decide
  have hp : p ∈ s.posts := by rw [hposts]; exact List.mem_cons_self
  obtain ⟨-, hanswer, hedit⟩ :=
    settled_is_stored Cipher.faithful_xchacha20Poly1305 (by decide) hs hsmall
  have hanswer := hanswer p hp
  have hedit := hedit p hp
  rw [hauthor, hpseq] at hanswer hedit
  have happlied : ((s.replica true).confirm 1 p.hash).1 = true := by
    rw [Replica.confirm, if_pos ⟨hsent, hseq.symm⟩]
  have heff : (s.replica true).Effective ⟨"a", none⟩ := by
    rw [Replica.Effective, hget]
    decide
  refine ⟨s, p, hposts, ⟨((s.replica true).confirm 1 p.hash).2, Prod.ext happlied rfl, ?_⟩,
    hedit _ heff _ .refl⟩
  obtain ⟨-, hcurrent, -, hread⟩ := hanswer _ (Prod.ext happlied rfl)
  exact ⟨hcurrent, hread false⟩

end Swarm

end AccountSync
