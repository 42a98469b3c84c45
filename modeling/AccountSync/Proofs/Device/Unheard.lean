import AccountSync.Proofs.Device.Noise
import AccountSync.Proofs.Device.Rollback
/-!
Calls that are handed noise. A call goes as if messages that no copy can read had not been received,
but that they are counted: copies, rows, calls of handlers and syncs that are asked for are the same. A
topic that only noise is of gets an outcome all the same, so its copy has to be one that can be used,
and a sync is asked for if it needed one before (`Receive.noise_unheard`).
-/

namespace AccountSync

open Step

/-- Under one key, what is registered first counts. -/
theorem Hooks.register_register {α : Type} (h : Hooks α) (key : String) (action : α) :
    ((h.register key action).2.register key action).2 = (h.register key action).2 := by
  have hhas : (h.register key action).2.has key = true := by
    unfold register
    split
    · assumption
    · simp [has]
  rw [register, if_pos hhas]

namespace Receive

variable {c : Cipher} {limit : Nat} {hashes : List String} {messages : List Message} {t : Topic}

/-! ### Notes -/

/-- A topic that a batch is of because of its noise alone. -/
def NoiseOnly (hashes : List String) (messages : List Message) (t : Topic) : Prop :=
  share messages t ≠ [] ∧ share (withoutNoise hashes messages) t = []

/-- More notes, of copies of topics that only noise is of, as these copies are. -/
structure MoreNotes (hashes : List String) (account : String) (messages : List Message) (cs : Copies)
    (undo undo' : Hooks Undo) : Prop where
  kept : undo.list.Sublist undo'.list
  more : ∀ p ∈ undo'.list, p ∈ undo.list ∨ ∃ t r, NoiseOnly hashes messages t ∧
    cs.find? ⟨account, t⟩ = some (.ready r) ∧
    p = (Write.undoName ⟨account, t⟩, ⟨⟨account, t⟩, r⟩)

namespace MoreNotes

variable {cs : Copies} {undo undo' : Hooks Undo} {account : String}

theorem refl (undo : Hooks Undo) : MoreNotes hashes account messages cs undo undo :=
  ⟨List.Sublist.refl _, fun _ hp => .inl hp⟩

/-- A copy of another topic is noted in both or in none. -/
theorem noteOf (h : MoreNotes hashes account messages cs undo undo')
    (ht : ¬ NoiseOnly hashes messages t) (slot : Option Slot) :
    MoreNotes hashes account messages cs (Receive.noteOf ⟨account, t⟩ slot undo)
      (Receive.noteOf ⟨account, t⟩ slot undo') := by
  cases slot with
  | none => exact h
  | some slot =>
    cases slot with
    | broken => exact h
    | ready r =>
      have hhas : undo'.has (Write.undoName ⟨account, t⟩) = undo.has (Write.undoName ⟨account, t⟩) := by
        rw [Bool.eq_iff_iff, Hooks.has, Hooks.has, List.any_eq_true, List.any_eq_true]
        refine ⟨fun ⟨p, hp, hname⟩ => ?_, fun ⟨p, hp, hname⟩ => ⟨p, h.kept.subset hp, hname⟩⟩
        rcases h.more p hp with hp | ⟨t', r', ht', -, rfl⟩
        · exact ⟨p, hp, hname⟩
        · have hkey := Write.undoName_inj (eq_of_beq hname)
          obtain rfl := congrArg CopyKey.topic hkey
          exact absurd ht' ht
      simp only [Receive.noteOf, Hooks.register, hhas]
      split
      · exact h
      · refine ⟨h.kept.append (List.Sublist.refl _), fun p hp => ?_⟩
        rcases List.mem_append.1 hp with hp | hp
        · exact (h.more p hp).imp_left (List.mem_append_left _)
        · exact .inl (List.mem_append_right _ hp)

/-- A copy of a topic that only noise is of is noted in one. -/
theorem noteOf_noise (h : MoreNotes hashes account messages cs undo undo')
    (ht : NoiseOnly hashes messages t) :
    MoreNotes hashes account messages cs undo
      (Receive.noteOf ⟨account, t⟩ (cs.find? ⟨account, t⟩) undo') := by
  cases hslot : cs.find? ⟨account, t⟩ with
  | none => exact h
  | some slot =>
    cases slot with
    | broken => exact h
    | ready r =>
      simp only [Receive.noteOf, Hooks.register]
      split
      · exact h
      · refine ⟨h.kept.trans (List.sublist_append_left _ _), fun p hp => ?_⟩
        rcases List.mem_append.1 hp with hp | hp
        · exact h.more p hp
        · exact .inr ⟨t, r, ht, hslot, List.mem_singleton.1 hp⟩

end MoreNotes

/-! ### All shares -/

/-- How the outcomes of a batch with noise come from those without it, topic by topic. -/
inductive Heard (hashes : List String) (account : String) (messages : List Message) (cs : Copies) :
    List Topic → List Outcome → List Outcome → Prop where
  | nil : Heard hashes account messages cs [] [] []
  /-- The topic is not loaded, or the batch has nothing for it. -/
  | silent {t : Topic} {ts : List Topic} {os os' : List Outcome} :
      cs.find? ⟨account, t⟩ = none ∨ share messages t = [] →
      Heard hashes account messages cs ts os os' →
      Heard hashes account messages cs (t :: ts) os os'
  /-- Nothing else than the number of received messages is told otherwise. -/
  | heard {t : Topic} {ts : List Topic} {o : Outcome} {os os' : List Outcome} : o.topic = t →
      cs.contains ⟨account, t⟩ = true → Heard hashes account messages cs ts os os' →
      Heard hashes account messages cs (t :: ts) (o :: os)
        (hear (noiseOf hashes messages t) o :: os')
  /-- There is an outcome for noise alone, and nothing was accepted. -/
  | gained {t : Topic} {ts : List Topic} {r : Replica} {os os' : List Outcome} :
      NoiseOnly hashes messages t → cs.find? ⟨account, t⟩ = some (.ready r) →
      Heard hashes account messages cs ts os os' →
      Heard hashes account messages cs (t :: ts) os
        ({ topic := t, received := noiseOf hashes messages t, needsPush := r.needsPush } :: os')

/-- The shares of some topics; those of all topics by rank are `shares`. -/
def sharesOf (messages : List Message) (ts : List Topic) : List (Topic × List Message) :=
  ts.filterMap fun t => match share messages t with
    | [] => none
    | l => some (t, l)

theorem sharesOf_cons_of_nil (h : share messages t = []) (ts : List Topic) :
    sharesOf messages (t :: ts) = sharesOf messages ts := by
  rw [sharesOf, List.filterMap_cons_none]
  · rfl
  · rw [h]

theorem sharesOf_cons (h : share messages t ≠ []) (ts : List Topic) :
    sharesOf messages (t :: ts) = (t, share messages t) :: sharesOf messages ts := by
  rw [sharesOf, List.filterMap_cons_some]
  · rfl
  · split
    · rename_i hnil
      exact absurd hnil h
    · rfl

variable {env : Env} {account : String} {cs : Copies} {ts ts' : List Topic} {w w' : Work}

theorem takeAll_cons_ok {l : List Message} {o : Option Outcome}
    (h : takeShare env ⟨account, t⟩ l w = (.ok o, w')) (rest : List (Topic × List Message)) :
    takeAll env account ((t, l) :: rest) w =
      ((takeAll env account rest w').1.map (o :: ·), (takeAll env account rest w').2) :=
  each_cons_ok (f := fun s : Topic × List Message => takeShare env ⟨account, s.1⟩ s.2)
    (b := (t, l)) h rest

theorem takeAll_cons_error {l : List Message} {trouble : Trouble}
    (h : takeShare env ⟨account, t⟩ l w = (.error trouble, w'))
    (rest : List (Topic × List Message)) :
    takeAll env account ((t, l) :: rest) w = (.error trouble, w') :=
  each_cons_error (f := fun s : Topic × List Message => takeShare env ⟨account, s.1⟩ s.2)
    (b := (t, l)) h rest

/-- The shares with noise are taken like those without: both fail alike, or the outcomes come from each
other. Only what is noted may differ. -/
inductive Alike (hashes : List String) (account : String) (messages : List Message) (cs : Copies)
    (ts : List Topic) : Except Trouble (List (Option Outcome)) × Work →
      Except Trouble (List (Option Outcome)) × Work → Prop where
  | failed (t : Trouble) (w : Work) {undo undo' : Hooks Undo} :
      MoreNotes hashes account messages cs undo undo' →
      Alike hashes account messages cs ts (.error t, w.onNotes undo) (.error t, w.onNotes undo')
  | ok {os os' : List (Option Outcome)} (w : Work) {undo undo' : Hooks Undo} :
      MoreNotes hashes account messages cs undo undo' →
      Heard hashes account messages cs ts (os.filterMap id) (os'.filterMap id) →
      Alike hashes account messages cs ts (.ok os, w.onNotes undo) (.ok os', w.onNotes undo')

theorem Alike.imp {x y : Except Trouble (List (Option Outcome)) × Work}
    (h : Alike hashes account messages cs ts x y)
    (himp : ∀ os os' : List Outcome, Heard hashes account messages cs ts os os' →
      Heard hashes account messages cs ts' os os') : Alike hashes account messages cs ts' x y := by
  cases h with
  | failed t w hnotes => exact .failed t w hnotes
  | ok w hnotes hheard => exact .ok w hnotes (himp _ _ hheard)

theorem Alike.map {x y : Except Trouble (List (Option Outcome)) × Work}
    {f g : List (Option Outcome) → List (Option Outcome)}
    (h : Alike hashes account messages cs ts x y)
    (hmap : ∀ os os' : List (Option Outcome),
      Heard hashes account messages cs ts (os.filterMap id) (os'.filterMap id) →
      Heard hashes account messages cs ts' ((f os).filterMap id) ((g os').filterMap id)) :
    Alike hashes account messages cs ts' (x.1.map f, x.2) (y.1.map g, y.2) := by
  cases h with
  | failed t w hnotes => exact .failed t w hnotes
  | ok w hnotes hheard => exact .ok w hnotes (hmap _ _ hheard)

theorem Alike.map_noisy {x y : Except Trouble (List (Option Outcome)) × Work}
    {g : List (Option Outcome) → List (Option Outcome)}
    (h : Alike hashes account messages cs ts x y)
    (hmap : ∀ os os' : List (Option Outcome),
      Heard hashes account messages cs ts (os.filterMap id) (os'.filterMap id) →
      Heard hashes account messages cs ts' (os.filterMap id) ((g os').filterMap id)) :
    Alike hashes account messages cs ts' x (y.1.map g, y.2) := by
  cases h with
  | failed t w hnotes => exact .failed t w hnotes
  | ok w hnotes hheard => exact .ok w hnotes (hmap _ _ hheard)

/-- Copies of some topics, before any share is taken: the noise cannot be read, and where there is
nothing but noise the copy can be used. -/
structure Deafened (c : Cipher) (hashes : List String) (account : String) (messages : List Message)
    (cs : Copies) (ts : List Topic) (w : Work) : Prop where
  slots : ∀ t ∈ ts, w.device.copies.find? ⟨account, t⟩ = cs.find? ⟨account, t⟩
  unreadable : ∀ t ∈ ts, ∀ m ∈ share messages t, isNoise hashes m = true → ∀ r,
    cs.find? ⟨account, t⟩ = some (.ready r) → ¬ r.Readable c m.payload
  usable : ∀ t ∈ ts, NoiseOnly hashes messages t → cs.find? ⟨account, t⟩ ≠ some .broken

theorem Deafened.tail (h : Deafened c hashes account messages cs (t :: ts) w)
    (hw : ∀ t' ∈ ts, w'.device.copies.find? ⟨account, t'⟩ = w.device.copies.find? ⟨account, t'⟩) :
    Deafened c hashes account messages cs ts w' where
  slots t' ht := (hw t' ht).trans (h.slots t' (List.mem_cons_of_mem t ht))
  unreadable t' ht := h.unreadable t' (List.mem_cons_of_mem t ht)
  usable t' ht := h.usable t' (List.mem_cons_of_mem t ht)

/-- The share of a topic that only noise is of, where the copy is there: nothing is done to it, but it is
noted, and there is an outcome. -/
theorem takeShare_noise_ready {r : Replica} (henv : env.engine = .plain c limit)
    (hnoise : NoiseOnly hashes messages t)
    (hslot : w.device.copies.find? ⟨account, t⟩ = some (.ready r))
    (hunreadable : ∀ m ∈ share messages t, isNoise hashes m = true → ¬ r.Readable c m.payload)
    (undo : Hooks Undo) :
    takeShare env ⟨account, t⟩ (share messages t) (w.onNotes undo) =
      (.ok (some { topic := t, received := noiseOf hashes messages t, needsPush := r.needsPush }),
        w.onNotes (noteOf ⟨account, t⟩ (some (.ready r)) undo)) := by
  have hbase : withoutNoise hashes (share messages t) = [] :=
    (share_withoutNoise hashes messages t).symm.trans hnoise.2
  have hmerge : mergeShare env ⟨account, t⟩ (share messages t) (r, w) =
      (.ok { topic := t, received := noiseOf hashes messages t, needsPush := r.needsPush },
        (r, w)) := by
    rw [mergeShare_hear henv hunreadable, Step.map_run, hbase, mergeShare_nil henv, countP_share]
    simp [Except.map, hear]
  rw [takeShare_onNotes, Write.use_of_ok hslot hmerge, hslot, Write.settle,
    SortedMap.insert_of_find? hslot]

/-- The share of a topic that only noise is of does not fail, and only notes the copy. -/
theorem takeShare_noise {undo undo' : Hooks Undo} (henv : env.engine = .plain c limit)
    (hdeaf : Deafened c hashes account messages cs (t :: ts) w)
    (hnoise : NoiseOnly hashes messages t)
    (hnotes : MoreNotes hashes account messages cs undo undo') :
    ∃ o undo₁, takeShare env ⟨account, t⟩ (share messages t) (w.onNotes undo') =
        (.ok o, w.onNotes undo₁) ∧
      MoreNotes hashes account messages cs undo undo₁ ∧
      ∀ os os' : List (Option Outcome),
        Heard hashes account messages cs ts (os.filterMap id) (os'.filterMap id) →
        Heard hashes account messages cs (t :: ts) (os.filterMap id) ((o :: os').filterMap id) := by
  have hslots := hdeaf.slots t List.mem_cons_self
  cases hslot : cs.find? ⟨account, t⟩ with
  | none =>
    have hrun : takeShare env ⟨account, t⟩ (share messages t) (w.onNotes undo') =
        (.ok none, w.onNotes undo') := by
      rw [takeShare_onNotes, Write.use_of_none _ (hslots.trans hslot), hslots, hslot]
      rfl
    exact ⟨none, undo', hrun, hnotes, fun _ _ => .silent (.inl hslot)⟩
  | some slot =>
    cases slot with
    | broken => exact absurd hslot (hdeaf.usable t List.mem_cons_self hnoise)
    | ready r =>
      have hrun := takeShare_noise_ready henv hnoise (hslots.trans hslot) (fun m hm hn =>
        hdeaf.unreadable t List.mem_cons_self m hm hn r hslot) undo'
      exact ⟨_, _, hrun, hslot ▸ hnotes.noteOf_noise hnoise, fun _ _ => .gained hnoise hslot⟩

/-- Shares with noise are taken like those without, topic by topic. -/
theorem takeAll_alike (henv : env.engine = .plain c limit) :
    ∀ {ts : List Topic} {w : Work} {undo undo' : Hooks Undo}, ts.Nodup →
      Deafened c hashes account messages cs ts w →
      MoreNotes hashes account messages cs undo undo' →
      Alike hashes account messages cs ts
        (takeAll env account (sharesOf (withoutNoise hashes messages) ts) (w.onNotes undo))
        (takeAll env account (sharesOf messages ts) (w.onNotes undo'))
  | [], w, _, _, _, _, hnotes => .ok w hnotes .nil
  | t :: ts, w, undo, undo', hn, hdeaf, hnotes => by
    obtain ⟨hhead, hn⟩ := List.nodup_cons.1 hn
    by_cases hnone : share messages t = []
    · -- Neither batch has anything for the topic.
      have hbase : share (withoutNoise hashes messages) t = [] := by
        rw [share_withoutNoise, hnone]
        rfl
      rw [sharesOf_cons_of_nil hnone, sharesOf_cons_of_nil hbase]
      exact (takeAll_alike henv hn (hdeaf.tail fun _ _ => rfl) hnotes).imp
        fun _ _ => .silent (.inr hnone)
    rw [sharesOf_cons hnone]
    by_cases hbase : share (withoutNoise hashes messages) t = []
    · -- Only one takes a share, which is noise.
      obtain ⟨o, undo₁, hrun, hnotes', hheard⟩ := takeShare_noise henv hdeaf ⟨hnone, hbase⟩ hnotes
      rw [sharesOf_cons_of_nil hbase, takeAll_cons_ok hrun]
      exact (takeAll_alike henv hn (hdeaf.tail fun _ _ => rfl) hnotes').map_noisy hheard
    · -- Both take a share.
      have hslots := hdeaf.slots t List.mem_cons_self
      obtain ⟨result, w₁, hrun, hrun'⟩ := takeShare_hear henv (fun m hm hn r hr =>
        hdeaf.unreadable t List.mem_cons_self m hm hn r (hslots.symm.trans hr)) undo undo'
      have hnotes' := hnotes.noteOf (fun h => hbase h.2) (w.device.copies.find? ⟨account, t⟩)
      rw [sharesOf_cons hbase, share_withoutNoise]
      cases result with
      | error trouble =>
        rw [takeAll_cons_error hrun, takeAll_cons_error hrun']
        exact .failed trouble w₁ hnotes'
      | ok o =>
        obtain ⟨calls, hpart, -, -, helse⟩ := takeShare_part hrun
        have hw₁ : ∀ t' ∈ ts,
            w₁.device.copies.find? ⟨account, t'⟩ = w.device.copies.find? ⟨account, t'⟩ :=
          fun t' ht' => helse.slots ⟨account, t'⟩ fun _ hmem =>
            hhead (List.mem_singleton.1 hmem ▸ ht')
        rw [takeAll_cons_ok hrun, takeAll_cons_ok hrun']
        refine (takeAll_alike henv hn (hdeaf.tail hw₁) hnotes').map fun os os' hheard => ?_
        cases hpart with
        | missing hslot => exact .silent (.inl (hslots.symm.trans hslot)) hheard
        | took r r' db db' o calls htook hbefore =>
          simp only [Option.map_some, id_eq]
          rw [countP_share]
          refine .heard htook.topic ?_ hheard
          rw [SortedMap.contains, ← hslots]
          exact Option.isSome_iff_exists.2 ⟨_, congrArg Prod.fst hbefore⟩

/-! ### Counting -/

/-- How many messages of loaded topics have one of these hashes. -/
def noiseHeard (hashes : List String) (account : String) (messages : List Message) (cs : Copies) :
    Nat :=
  messages.countP fun m => isNoise hashes m && cs.contains ⟨account, m.topic⟩

/-- How many messages of some of the topics have one of these hashes, if they are loaded. -/
def noiseIn (hashes : List String) (account : String) (messages : List Message) (cs : Copies) :
    List Topic → Nat
  | [] => 0
  | t :: ts => (if cs.contains ⟨account, t⟩ then noiseOf hashes messages t else 0) +
      noiseIn hashes account messages cs ts

/-- Each message is counted with its topic. -/
theorem noiseIn_byRank (hashes : List String) (account : String) (messages : List Message)
    (cs : Copies) : noiseIn hashes account messages cs Topic.byRank =
      noiseHeard hashes account messages cs := by
  induction messages with
  | nil => simp [noiseIn, noiseOf, noiseHeard, Topic.byRank]
  | cons m messages ih =>
    rw [noiseHeard, List.countP_cons, ← noiseHeard, ← ih]
    simp only [noiseIn, noiseOf, Topic.byRank, List.countP_cons]
    cases m.topic <;> grind

end Receive

namespace Stats

/-- Counts this many more messages. -/
def hear (n : Nat) (s : Stats) : Stats := { s with received := s.received + .ofNat n }

theorem hear_zero (s : Stats) : s.hear 0 = s := by
  simp [hear]

theorem hear_hear (m n : Nat) (s : Stats) : (s.hear m).hear n = s.hear (m + n) := by
  simp [hear, UInt64.ofNat_add, UInt64.add_assoc]

theorem take_hear (s : Stats) (n : Nat) (o : Outcome) :
    s.take (Receive.hear n o) = (s.take o).hear n := by
  simp only [take, hear, Receive.hear, merge, save, UInt64.ofNat_add, UInt64.add_assoc]
  rfl

theorem hear_take (s : Stats) (n : Nat) (o : Outcome) : (s.hear n).take o = (s.take o).hear n := by
  simp only [take, hear, merge, save, UInt64.add_assoc, UInt64.add_comm (.ofNat n)]

theorem foldl_take_hear (os : List Outcome) (n : Nat) (s : Stats) :
    os.foldl take (s.hear n) = (os.foldl take s).hear n :=
  List.foldl_hom (hear n) fun s o => hear_take s n o

end Stats

namespace Receive

variable {account : String} {cs : Copies} {ts : List Topic} {os os' : List Outcome}

/-- With noise, that many more messages are counted. -/
theorem Heard.stats (h : Heard hashes account messages cs ts os os') (s : Stats) :
    os'.foldl Stats.take s =
      (os.foldl Stats.take s).hear (noiseIn hashes account messages cs ts) := by
  induction h generalizing s with
  | nil => exact s.hear_zero.symm
  | @silent t ts os os' hnone _ ih =>
    have hzero : (if cs.contains ⟨account, t⟩ then noiseOf hashes messages t else 0) = 0 := by
      rcases hnone with hnone | hnone
      · rw [SortedMap.contains, hnone]
        rfl
      · rw [← countP_share, hnone]
        exact ite_self 0
    rw [noiseIn, hzero, Nat.zero_add, ih]
  | heard _ hloaded _ ih =>
    rw [List.foldl_cons, List.foldl_cons, ih, Stats.take_hear, Stats.foldl_take_hear,
      Stats.hear_hear, noiseIn, if_pos hloaded]
  | @gained t ts r os os' _ hslot _ ih =>
    have hloaded : cs.contains ⟨account, t⟩ = true := by rw [SortedMap.contains, hslot]; rfl
    have htake : s.take ⟨t, noiseOf hashes messages t, r.needsPush, false, [], none⟩ =
        s.hear (noiseOf hashes messages t) := by
      simp [Stats.take, Stats.merge, Stats.save, Stats.hear]
    rw [List.foldl_cons, htake, ih, Stats.foldl_take_hear, Stats.hear_hear, noiseIn,
      if_pos hloaded]

/-- What needed a sync without noise needs one with it. -/
theorem Heard.needs (h : Heard hashes account messages cs ts os os')
    (hneeds : os.any (·.needsPush) = true) : os'.any (·.needsPush) = true := by
  induction h with
  | nil => exact hneeds
  | silent _ _ ih => exact ih hneeds
  | heard _ _ _ ih =>
    rw [List.any_cons, Bool.or_eq_true] at hneeds ⊢
    exact hneeds.imp id ih
  | gained _ _ _ ih =>
    rw [List.any_cons, Bool.or_eq_true]
    exact .inr (ih hneeds)

/-- An account that a batch asks for without noise is asked for only once with it. -/
theorem Heard.asked (h : Heard hashes account messages cs ts os os') (env : Env)
    (after : Hooks Signal) : Receive.asked env account os' (Receive.asked env account os after) =
      Receive.asked env account os' after := by
  by_cases hneeds : os.any (·.needsPush) = true
  · simp only [Receive.asked, hneeds, h.needs hneeds, if_true, Hooks.register_register]
  · simp only [Receive.asked, hneeds, Bool.false_eq_true, if_false]

variable {env : Env} {w : Work}

/-! ### Calls -/

/-- A call with noise goes as the one without it. Both fail alike; or the noise is counted, and a sync is
asked for if an outcome for noise alone needs one. All else is the same, but for notes of copies that
are as they were. -/
inductive Unheard (env : Env) (hashes : List String) (account : String) (messages : List Message)
    (cs : Copies) : Except Trouble (List Outcome) × Work →
      Except Trouble (List Outcome) × Work → Prop where
  | failed (trouble : Trouble) (w : Work) {undo undo' : Hooks Undo} :
      MoreNotes hashes account messages cs undo undo' →
      Unheard env hashes account messages cs (.error trouble, w.onNotes undo)
        (.error trouble, w.onNotes undo')
  | ok {os os' : List Outcome} (w : Work) {undo undo' : Hooks Undo} :
      MoreNotes hashes account messages cs undo undo' →
      Heard hashes account messages cs Topic.byRank os os' →
      Unheard env hashes account messages cs (.ok os, w.onNotes undo)
        (.ok os',
          { device := { w.device with
              stats := w.device.stats.hear (noiseHeard hashes account messages cs) }
            tx := { w.tx with undo := undo', after := asked env account os' w.tx.after } })

/-- A call with noise that no copy can read goes as without it, if copies that only noise is for can be
used. -/
theorem receive_unheard {hashes : List String} (henv : env.engine = .plain c limit)
    (hnoise : ∀ m ∈ messages, isNoise hashes m = true → ∀ r,
      w.device.copies.find? ⟨account, m.topic⟩ = some (.ready r) → ¬ r.Readable c m.payload)
    (husable : ∀ t, NoiseOnly hashes messages t →
      w.device.copies.find? ⟨account, t⟩ ≠ some .broken) :
    Unheard env hashes account messages w.device.copies
      (Write.receive env account (withoutNoise hashes messages) w)
      (Write.receive env account messages w) := by
  by_cases haccount : account = ""
  · rw [receive_noThread haccount, receive_noThread haccount]
    exact .failed (.failed .noThread) w (.refl w.tx.undo)
  have hdeaf : Deafened c hashes account messages w.device.copies Topic.byRank w := by
    refine ⟨fun _ _ => rfl, fun t _ m hm hn r hr => ?_, fun t _ => husable t⟩
    obtain ⟨hmem, rfl⟩ := mem_share.1 hm
    exact hnoise m hmem hn r hr
  have halike : Alike hashes account messages w.device.copies Topic.byRank
      (takeAll env account (shares (withoutNoise hashes messages)) w)
      (takeAll env account (shares messages) w) :=
    takeAll_alike henv (by decide) hdeaf (.refl w.tx.undo)
  rw [receive_eq haccount, receive_eq haccount]
  rcases hbase : takeAll env account (shares (withoutNoise hashes messages)) w with ⟨x, w₁⟩
  rcases hnoisy : takeAll env account (shares messages) w with ⟨y, w₁'⟩
  rw [hbase, hnoisy] at halike
  cases halike with
  | failed trouble w₁ hnotes =>
    rw [bind_run_error hbase, bind_run_error hnoisy]
    exact .failed trouble w₁ hnotes
  | @ok os os' w₁ undo undo' hnotes hheard =>
    rw [bind_run_ok hbase, bind_run_ok hnoisy, conclude_run, conclude_run, hheard.stats,
      noiseIn_byRank, ← hheard.asked]
    exact .ok
      { device := { w₁.device with stats := (os.filterMap id).foldl Stats.take w₁.device.stats }
        tx := { w₁.tx with after := asked env account (os.filterMap id) w₁.tx.after } }
      hnotes hheard

/-- What a call does is revocable, so it is undone if it fails. -/
theorem receive_revocable (d : Device) (env : Env) (account : String) (messages : List Message) :
    Keeps (Revocable d) (Write.receive env account messages) :=
  Write.receive_guarded (guarded_revocable d) (fun _ _ _ => trivial) (fun _ _ _ _ => trivial)
    account messages

/-- A call that is all of a write leaves the same with noise, whether it fails or not. -/
theorem Unheard.left {d : Device} {messages' : List Message}
    (h : Unheard env hashes account messages cs (Write.receive env account messages' d.start)
      (Write.receive env account messages d.start)) :
    (d.write (Write.receive env account messages)).2.copies =
        (d.write (Write.receive env account messages')).2.copies ∧
      (d.write (Write.receive env account messages)).2.database =
        (d.write (Write.receive env account messages')).2.database ∧
      (d.write (Write.receive env account messages)).2.applied =
        (d.write (Write.receive env account messages')).2.applied := by
  have hundo := receive_revocable d env account messages' d.start (revocable_start d)
  have hundo' := receive_revocable d env account messages d.start (revocable_start d)
  unfold Device.write
  generalize Write.receive env account messages' d.start = x at h hundo ⊢
  generalize Write.receive env account messages d.start = y at h hundo' ⊢
  cases h with
  | failed trouble w hnotes =>
    cases trouble with
    | brokeOff text => exact ⟨rfl, rfl, rfl⟩
    | failed f =>
      obtain ⟨hcopies, hdatabase, -⟩ := Revocable.rollback hundo
      obtain ⟨hcopies', hdatabase', -⟩ := Revocable.rollback hundo'
      exact ⟨hcopies'.trans hcopies.symm, hdatabase'.trans hdatabase.symm, rfl⟩
  | ok w hnotes hheard => exact ⟨rfl, rfl, rfl⟩

/-- A batch that has something for a copy that cannot be used fails. -/
theorem receive_broken (hshare : share messages t ≠ [])
    (hslot : w.device.copies.find? ⟨account, t⟩ = some .broken) :
    ∃ trouble w', Write.receive env account messages w = (.error trouble, w') := by
  rcases hrun : Write.receive env account messages w with ⟨trouble | outcomes, w'⟩
  · exact ⟨trouble, w', rfl⟩
  obtain ⟨os, calls, -, htaken⟩ := taken_of_ok hrun
  obtain ⟨hnone, -⟩ | ⟨o, calls, hpart⟩ := htaken.part_or_same t
  · exact absurd hnone hshare
  cases hpart with
  | missing hnone =>
    rw [hslot] at hnone
    cases hnone
  | took r _ _ _ _ _ _ hbefore => cases hslot.symm.trans (congrArg Prod.fst hbefore)

/-- Messages that the copies of their topics cannot read change nothing. A merge, which never fails, goes as if
such payloads were not in its batch. A call goes as if such messages, told by their hashes, had not been
received: copies, rows, calls of handlers and syncs that are asked for are the same, and only more
messages are counted. But a topic that nothing else is of gets an outcome, so that a sync is asked for if
its copy needed one, and the call fails if its copy cannot be used. -/
theorem noise_unheard {hashes : List String} (henv : env.engine = .plain c limit)
    (hnoise : ∀ m ∈ messages, isNoise hashes m = true → ∀ r,
      w.device.copies.find? ⟨account, m.topic⟩ = some (.ready r) → ¬ r.Readable c m.payload) :
    (∀ (r : Replica) (batch : List (String × Bytes)),
      env.engine.merge batch r = env.engine.merge (batch.filter fun x => r.Readable c x.2) r ∧
      ∃ accepted, (env.engine.merge batch r).1 = .ok accepted) ∧
    ((∃ t, NoiseOnly hashes messages t ∧ w.device.copies.find? ⟨account, t⟩ = some .broken) →
      ∃ trouble w', Write.receive env account messages w = (.error trouble, w')) ∧
    ((∀ t, NoiseOnly hashes messages t → w.device.copies.find? ⟨account, t⟩ ≠ some .broken) →
      Unheard env hashes account messages w.device.copies
        (Write.receive env account (withoutNoise hashes messages) w)
        (Write.receive env account messages w) ∧
      ∀ d : Device, d.start = w →
        let base := (d.write (Write.receive env account (withoutNoise hashes messages))).2
        let noisy := (d.write (Write.receive env account messages)).2
        noisy.copies = base.copies ∧ noisy.database = base.database ∧
          noisy.applied = base.applied) := by
  refine ⟨fun r batch => ?_, fun ⟨t, ht, hslot⟩ => receive_broken ht.1 hslot, fun husable => ?_⟩
  · rw [henv]
    simp only [Engine.plain]
    rw [Replica.merge_filter fun x _ hkeep => of_decide_eq_false hkeep]
    exact ⟨rfl, _, rfl⟩
  · have hunheard := receive_unheard henv hnoise husable
    refine ⟨hunheard, ?_⟩
    rintro d rfl
    exact hunheard.left

/-- A device with a profile, and with contacts in this slot. -/
def withSlot (contacts : Slot) : Device where
  copies := ((∅ : Copies).insert ⟨"05", .userProfile⟩ (.ready (.fresh .userProfile default))).insert
    ⟨"05", .contacts⟩ contacts

/-- Noise for contacts that are to be pushed, next to a message for the profile: it gets an outcome, and
a sync is asked for. -/
theorem noise_unheard_unpushed_contacts :
    let env : Env :=
      { engine := .plain .clear, identity := some "05", now := 900, listener := .queue }
    let unpushed := ((Replica.fresh .contacts default).set "k" [1]).2
    let d := withSlot (.ready unpushed)
    let message : Message :=
      ⟨.userProfile, 1, Cipher.clearPayload .userProfile 1 [1], some 7, some "g"⟩
    let noise : Message := ⟨.contacts, 1, [7], none, some "h"⟩
    let told : Outcome := ⟨.userProfile, 1, false, true, ["g"], some 7⟩
    ∃ w w', Write.receive env "05" [message] d.start = (.ok [told], w) ∧ w.tx.after = {} ∧
      Write.receive env "05" [message, noise] d.start =
        (.ok [told, ⟨.contacts, 1, true, false, [], none⟩], w') ∧
      w'.device = { w.device with stats := w.device.stats.hear 1 } ∧
      w'.tx.database = w.tx.database ∧ w'.tx.after.actions = [⟨"05", .queue⟩] := by
  intro env unpushed d message noise told
  have hsorted : sorted [message] = [message] := sorted_of_pairwise (by decide)
  have hsorted' : sorted [message, noise] = [message, noise] := sorted_of_pairwise (by decide)
  have hbase : (Write.receive env "05" [message] d.start).1 = .ok [told] ∧
      (Write.receive env "05" [message] d.start).2.tx.after.list = [] := by
    unfold Write.receive shares
    rw [hsorted]
    decide +kernel
  have hnoisy : (Write.receive env "05" [message, noise] d.start).1 =
      .ok [told, ⟨.contacts, 1, true, false, [], none⟩] := by
    unfold Write.receive shares
    rw [hsorted']
    decide +kernel
  have hnoise : ∀ m ∈ [message, noise], isNoise ["h"] m = true → ∀ r,
      d.start.device.copies.find? ⟨"05", m.topic⟩ = some (.ready r) →
        ¬ r.Readable .clear m.payload := by
    intro m hm hn r hr
    rcases List.mem_pair.1 hm with rfl | rfl
    · cases hn
    · have hslot : d.start.device.copies.find? ⟨"05", .contacts⟩ = some (.ready unpushed) := by
        decide +kernel
      obtain rfl := Slot.ready_unique hr hslot
      decide +kernel
  have husable : ∀ t, NoiseOnly ["h"] [message, noise] t →
      d.start.device.copies.find? ⟨"05", t⟩ ≠ some .broken := fun t _ => by
    cases t <;> decide +kernel
  have hcount : noiseHeard ["h"] "05" [message, noise] d.start.device.copies = 1 := by
    decide +kernel
  have henv : env.engine = .plain .clear := rfl
  have hunheard := ((noise_unheard henv hnoise).2.2 husable).1
  rw [show withoutNoise ["h"] [message, noise] = [message] from rfl] at hunheard
  generalize Write.receive env "05" [message] d.start = x at hbase hunheard ⊢
  generalize Write.receive env "05" [message, noise] d.start = y at hnoisy hunheard ⊢
  cases hunheard with
  | failed => cases hnoisy
  | ok w =>
    obtain rfl := Except.ok.inj hbase.1
    obtain rfl := Except.ok.inj hnoisy
    have hafter : w.tx.after = {} := congrArg Hooks.mk hbase.2
    refine ⟨_, _, rfl, hafter, rfl, ?_, rfl, ?_⟩
    · rw [hcount]
      rfl
    · rw [hafter]
      rfl

/-- Noise for contacts that cannot be used: the call fails, though it would not have without. -/
theorem not_unheard_unusable :
    let env : Env := { engine := .plain .clear, identity := some "05", now := 900 }
    let d := withSlot .broken
    let message : Message :=
      ⟨.userProfile, 1, Cipher.clearPayload .userProfile 1 [1], some 7, some "g"⟩
    let noise : Message := ⟨.contacts, 1, [7], none, some "h"⟩
    let (result, d') := d.write (Write.receive env "05" [message])
    let (result', d'') := d.write (Write.receive env "05" [message, noise])
    (∀ t ∈ Topic.all, ∀ r ∈ d.held.copy? "05" t, ¬ r.Readable .clear noise.payload) ∧
      result = .ok [⟨.userProfile, 1, false, true, ["g"], some 7⟩] ∧
      result' = .error (.failed .unusable) ∧ d'.copies ≠ d''.copies ∧ d'.database ≠ d''.database := by
  intro env d message noise
  have hsorted : sorted [message] = [message] := sorted_of_pairwise (by decide)
  have hsorted' : sorted [message, noise] = [message, noise] := sorted_of_pairwise (by decide)
  unfold Write.receive shares
  rw [hsorted, hsorted']
  decide +kernel

end Receive

end AccountSync
