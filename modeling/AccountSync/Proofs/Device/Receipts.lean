import AccountSync.Proofs.Device.Confirmation
/-!
Receipts in a row. A device is told again and again what the swarm has stored, late, twice or in any
order, and does nothing else in between. The first receipt saves a copy that was not saved, and from
then on a copy changes only when a receipt applies to it; that settles the copy, so no receipt applies
after that, and none that comes again does anything (`Device.applied_once`).
-/

namespace AccountSync

variable {c : Cipher} {limit : Nat}

/-- What a device is told of a message that the swarm stores. -/
structure Receipt where
  env : Env
  account : String
  message : Message
  hash : String

/-! ### Copies and receipts -/

namespace Receipt

variable {x : Receipt} {r : Replica}

/-- The copy that the message is of. -/
def key (x : Receipt) : CopyKey := ⟨x.account, x.message.topic⟩

/-- What becomes of the copy. -/
def tell (x : Receipt) : Replica → Replica :=
  SyncPass.tell x.env.engine ⟨⟨x.message, []⟩, x.hash⟩

theorem tell_eq (henv : x.env.engine = .plain c limit) (r : Replica) :
    x.tell r = { (r.confirm x.message.seq x.hash).2 with unsaved := false } := by
  rw [tell, henv, SyncPass.tell_plain]

end Receipt

namespace Replica

variable {x : Receipt} {r : Replica} {seq : Int} {applied : Bool}

/-- The copy does not wait for a receipt for this generation. -/
def Deaf (seq : Int) (r : Replica) : Prop := ¬ (r.phase = .sent ∧ seq = r.seq)

theorem deaf_of_settled (h : r.phase = .settled) (seq : Int) : r.Deaf seq := by
  rintro ⟨hsent, -⟩
  rw [h] at hsent
  cases hsent

theorem confirm_of_deaf (h : r.Deaf seq) (hash : String) : r.confirm seq hash = (false, r) :=
  if_neg h

/-- A receipt that applies settles the copy, and one that does not was not waited for. -/
theorem confirm_cases (seq : Int) (hash : String) (r : Replica) :
    (r.confirm seq hash).1 = true ∧ (r.confirm seq hash).2.phase = .settled ∨
      r.Deaf seq ∧ r.confirm seq hash = (false, r) := by
  by_cases hdeaf : r.Deaf seq
  · exact .inr ⟨hdeaf, confirm_of_deaf hdeaf hash⟩
  · have hc := confirm_confirmed r seq hash
    generalize r.confirm seq hash = y at hc
    cases hc with
    | applied _ _ _ hphase => exact .inl ⟨rfl, hphase⟩
    | ignored hno => exact absurd hno hdeaf

/-- A copy that was told of a generation: it is saved, does not wait for that generation, and is
settled if it did before. -/
structure Heard (seq : Int) (applied : Bool) (r : Replica) : Prop where
  saved : r.unsaved = false
  deaf : r.Deaf seq
  settled : applied = true → r.phase = .settled

theorem heard_tell (henv : x.env.engine = .plain c limit) (r : Replica) :
    Heard x.message.seq (r.confirm x.message.seq x.hash).1 (x.tell r) := by
  rw [Receipt.tell_eq henv]
  rcases confirm_cases x.message.seq x.hash r with ⟨-, hphase⟩ | ⟨hdeaf, heq⟩
  · exact ⟨rfl, deaf_of_settled hphase _, fun _ => hphase⟩
  · rw [heq]
    exact ⟨rfl, hdeaf, fun happlied => by cases happlied⟩

/-- That stays so, whatever the copy is told. -/
theorem Heard.tell (h : Heard seq applied r) (henv : x.env.engine = .plain c limit) :
    Heard seq applied (x.tell r) := by
  rw [Receipt.tell_eq henv]
  rcases confirm_cases x.message.seq x.hash r with ⟨-, hphase⟩ | ⟨-, heq⟩
  · exact ⟨rfl, deaf_of_settled hphase _, fun _ => hphase⟩
  · rw [heq]
    exact ⟨rfl, h.deaf, h.settled⟩

end Replica

/-! ### Receipts in a row -/

/-- A receipt, and the device that it finds. -/
structure Filing where
  receipt : Receipt
  before : Device

namespace Filing

/-- The device is told of the message. -/
def run (x : Filing) : Except Trouble (Option Dump) × Device :=
  x.before.read
    (Write.confirm x.receipt.env x.receipt.account x.receipt.message x.receipt.hash)

def answer (x : Filing) : Except Trouble (Option Dump) := x.run.1

/-- The dump to store, if there is one. -/
def dump? (x : Filing) : Option Dump :=
  match x.answer with
  | .ok dump => dump
  | .error _ => none

def after (x : Filing) : Device := x.run.2

/-- The copy takes the receipt for the generation that it has sent. -/
def applied (x : Filing) : Bool :=
  match x.before.copies.find? x.receipt.key with
  | some (.ready r) => (r.confirm x.receipt.message.seq x.receipt.hash).1
  | _ => false

end Filing

namespace Device

/-- Tells a device of one message after the other. -/
def file (d : Device) : List Receipt → List Filing
  | [] => []
  | x :: rest => ⟨x, d⟩ :: (Filing.after ⟨x, d⟩).file rest

theorem map_file : ∀ (d : Device) (receipts : List Receipt),
    (d.file receipts).map Filing.receipt = receipts
  | _, [] => rfl
  | _, x :: rest => congrArg (x :: ·) (map_file _ rest)

theorem receipt_mem_of_file {d : Device} {receipts : List Receipt} {x : Filing}
    (hx : x ∈ d.file receipts) : x.receipt ∈ receipts :=
  map_file d receipts ▸ List.mem_map_of_mem hx

end Device

namespace Filing

variable {x : Filing} {r : Replica}

/-- What becomes of a copy: it is told of the message if that is its own. -/
theorem find?_after (x : Filing) (key : CopyKey) :
    x.after.copies.find? key = if x.receipt.key = key then
      (x.before.copies.find? key).map (Slot.adjust x.receipt.tell)
      else x.before.copies.find? key := by
  have htold := SyncPass.confirm_told x.receipt.env x.receipt.account
    ⟨⟨x.receipt.message, []⟩, x.receipt.hash⟩ x.before.start
  rw [show x.after.copies = _ from congrArg Prod.fst htold]
  split
  · rename_i hkey
    rw [← hkey]
    exact Copies.find?_adjust_self _ _ _
  · rename_i hkey
    exact Copies.find?_adjust_of_ne _ _ (Ne.symm hkey)

/-- What a device answers and counts, and what becomes of the copy. -/
theorem run_eq (henv : x.receipt.env.engine = .plain c limit)
    (hslot : x.before.copies.find? x.receipt.key = some (.ready r)) {r' : Replica}
    (hr : r.confirm x.receipt.message.seq x.receipt.hash = (x.applied, r')) :
    x.run = (.ok (if r'.unsaved then some ⟨x.receipt.message.topic, x.receipt.account,
        Standing.layout.put r'.toStanding, x.receipt.message.time.getD x.receipt.env.now⟩ else none),
      { x.before with
        copies := x.before.copies.insert x.receipt.key (.ready { r' with unsaved := false })
        stats := x.before.stats.tally x.applied r'.unsaved }) := by
  rw [run, Device.read, Write.confirm_eq (w := x.before.start) henv _ _ hslot hr]
  rfl

/-- What a receipt does: it applies and there is a dump to store; or the copy is only saved, as it was
not before; or nothing happens to the device at all. -/
structure Did (x : Filing) (r : Replica) : Prop where
  answer : x.answer = .ok x.dump?
  stats : x.after.stats = x.before.stats.tally x.applied x.dump?.isSome
  cases : x.applied = true ∧ x.dump?.isSome ∨ x.applied = false ∧
    (x.dump?.isSome ∧ r.unsaved = true ∨ x.dump? = none ∧ x.after = x.before)

theorem dump?_of_answer {dump : Option Dump} (h : x.answer = .ok dump) : x.dump? = dump := by
  rw [dump?, h]

theorem applied_eq (hslot : x.before.copies.find? x.receipt.key = some (.ready r)) :
    x.applied = (r.confirm x.receipt.message.seq x.receipt.hash).1 := by
  rw [applied, hslot]

theorem did (henv : x.receipt.env.engine = .plain c limit)
    (hslot : x.before.copies.find? x.receipt.key = some (.ready r)) : x.Did r := by
  have hc := Replica.confirm_confirmed r x.receipt.message.seq x.receipt.hash
  rcases hr : r.confirm x.receipt.message.seq x.receipt.hash with ⟨applied, r'⟩
  have happlied := applied_eq hslot
  rw [hr] at happlied hc
  dsimp only at happlied
  subst happlied
  have hrun := run_eq henv hslot hr
  have hanswer : x.answer = _ := congrArg Prod.fst hrun
  have hdump := dump?_of_answer hanswer
  refine ⟨by rw [hanswer, hdump], ?_, ?_⟩
  · rw [after, hrun, hdump]
    cases r'.unsaved <;> rfl
  · rw [after, hrun, hdump]
    generalize x.applied = applied at hc
    cases hc with
    | applied _ _ _ _ _ _ _ hunsaved => exact .inl ⟨rfl, by rw [hunsaved]; rfl⟩
    | ignored =>
      refine .inr ⟨rfl, ?_⟩
      cases hunsaved : r.unsaved with
      | true => exact .inl ⟨rfl, rfl⟩
      | false =>
        have hsame : ({ r with unsaved := false } : Replica) = r := by rw [← hunsaved]
        refine .inr ⟨rfl, ?_⟩
        rw [hsame, SortedMap.insert_of_find? hslot]
        rfl

/-- A receipt does not apply to a copy that does not wait for it. -/
theorem applied_of_deaf (hslot : x.before.copies.find? x.receipt.key = some (.ready r))
    (hdeaf : r.Deaf x.receipt.message.seq) : x.applied = false :=
  (applied_eq hslot).trans (congrArg Prod.fst (Replica.confirm_of_deaf hdeaf x.receipt.hash))

/-- To a copy that was told of a message, a receipt does nothing unless it applies. -/
theorem Did.of_saved (h : x.Did r) (hsaved : r.unsaved = false) :
    x.applied = true ∧ x.dump?.isSome ∨
      x.applied = false ∧ x.dump? = none ∧ x.after = x.before := by
  rcases h.cases with happlied | ⟨hnot, ⟨-, hunsaved⟩ | hsame⟩
  · exact .inl happlied
  · rw [hsaved] at hunsaved
    cases hunsaved
  · exact .inr ⟨hnot, hsame⟩

end Filing

namespace Device

variable {key : CopyKey}

/-- What every receipt keeps of a copy holds of it whenever the copy is found. -/
theorem found_of_keeps {P : Replica → Prop} : ∀ {receipts : List Receipt} {d : Device}
    {r : Replica}, (∀ x ∈ receipts, x.key = key → ∀ r, P r → P (x.tell r)) →
    d.copies.find? key = some (.ready r) → P r →
    ∀ x ∈ d.file receipts, ∃ r', x.before.copies.find? key = some (.ready r') ∧ P r'
  | [], _, _, _, _, _, x, hx => by cases hx
  | y :: rest, d, r, hkeep, hslot, hr, x, hx => by
    rcases List.mem_cons.1 hx with rfl | hx
    · exact ⟨r, hslot, hr⟩
    · obtain ⟨hone, hrest⟩ := List.forall_mem_cons.1 hkeep
      have hafter := Filing.find?_after ⟨y, d⟩ key
      rw [show (⟨y, d⟩ : Filing).before.copies.find? key = _ from hslot] at hafter
      split at hafter
      · rename_i hkey
        exact found_of_keeps hrest hafter (hone hkey r hr) x hx
      · exact found_of_keeps hrest hafter hr x hx

/-- When a copy was told of a message, every later receipt finds it so. -/
theorem file_heard : ∀ {receipts : List Receipt} {d : Device} {r : Replica},
    (∀ x ∈ receipts, x.key = key → x.env.engine = .plain c limit) →
    d.copies.find? key = some (.ready r) →
    (d.file receipts).Pairwise fun x y => x.receipt.key = key →
      ∃ r', y.before.copies.find? key = some (.ready r') ∧
        r'.Heard x.receipt.message.seq x.applied
  | [], _, _, _, _ => .nil
  | y :: rest, d, r, henv, hslot => by
    obtain ⟨henv, hrest⟩ := List.forall_mem_cons.1 henv
    have hafter := Filing.find?_after ⟨y, d⟩ key
    rw [show (⟨y, d⟩ : Filing).before.copies.find? key = _ from hslot] at hafter
    refine List.pairwise_cons.2 ⟨fun x hx hkey => ?_, ?_⟩
    · have happlied : (⟨y, d⟩ : Filing).applied = (r.confirm y.message.seq y.hash).1 :=
        Filing.applied_eq (show d.copies.find? y.key = _ by rw [← hslot, ← hkey])
      rw [if_pos hkey] at hafter
      refine found_of_keeps (fun z hz hkey r hr => hr.tell (hrest z hz hkey)) hafter ?_ x hx
      rw [happlied]
      exact Replica.heard_tell (henv hkey) r
    · split at hafter <;> exact file_heard hrest hafter

/-- What a receipt for a copy does, and what one after it does then. -/
theorem file_did {d : Device} {r : Replica} {receipts : List Receipt}
    (hslot : d.copies.find? key = some (.ready r))
    (henv : ∀ x ∈ receipts, x.key = key → x.env.engine = .plain c limit) :
    (∀ x ∈ d.file receipts, x.receipt.key = key → ∃ r, x.Did r) ∧
    (d.file receipts).Pairwise fun x y => x.receipt.key = key → y.receipt.key = key →
      (y.applied = true ∧ y.dump?.isSome ∨
        y.applied = false ∧ y.dump? = none ∧ y.after = y.before) ∧
      (x.applied = true ∨ x.receipt.message.seq = y.receipt.message.seq → y.applied = false) := by
  constructor
  · intro x hx hkey
    obtain ⟨r', hslot', -⟩ := found_of_keeps (P := fun _ => True) (fun _ _ _ _ _ => trivial)
      hslot trivial x hx
    exact ⟨r', Filing.did (henv _ (receipt_mem_of_file hx) hkey) (hkey ▸ hslot')⟩
  · refine (file_heard henv hslot).imp_of_mem fun {x y} _ hy hheard hx hykey => ?_
    obtain ⟨r', hslot', hheard⟩ := hheard hx
    rw [← hykey] at hslot'
    refine ⟨(Filing.did (henv _ (receipt_mem_of_file hy) hykey) hslot').of_saved hheard.saved,
      fun hdeaf => Filing.applied_of_deaf hslot' ?_⟩
    rcases hdeaf with happlied | hseq
    · exact Replica.deaf_of_settled (hheard.settled happlied) _
    · rw [← hseq]
      exact hheard.deaf

/-- Of things that rule out those of a kind after them if they are of it, one at most is of it. -/
theorem countP_le_one {α : Type} {p : α → Bool} : ∀ {l : List α},
    l.Pairwise (fun x y => p x = true → p y = false) → l.countP p ≤ 1
  | [], _ => Nat.zero_le 1
  | x :: l, h => by
    obtain ⟨hx, hl⟩ := List.pairwise_cons.1 h
    cases hp : p x with
    | true =>
      have hnone : l.countP p = 0 := List.countP_eq_zero.2 fun y hy => by simp [hx y hy hp]
      rw [List.countP_cons_of_pos hp, hnone]
    | false =>
      rw [List.countP_cons_of_neg (by simp [hp])]
      exact countP_le_one hl

/-- Receipts in a row for a copy, with any others among them. Each gives a result and counts what it
did. At most one applies; after the first one, exactly that one has a dump to store. One that neither
applies nor has a dump leaves the device as it was, and so does every one for a generation of which the
copy was told before. -/
theorem applied_once {d : Device} {r : Replica} {receipts : List Receipt}
    (hslot : d.copies.find? key = some (.ready r))
    (henv : ∀ x ∈ receipts, x.key = key → x.env.engine = .plain c limit) :
    let filed := (d.file receipts).filter fun x => x.receipt.key = key
    (∀ x ∈ filed, x.answer = .ok x.dump? ∧
      x.after.stats = x.before.stats.tally x.applied x.dump?.isSome ∧
      (x.applied = false → x.dump? = none → x.after = x.before)) ∧
    filed.countP (·.applied) ≤ 1 ∧
    (∀ x ∈ filed.tail, x.dump?.isSome = x.applied) ∧
    filed.Pairwise fun x y => x.receipt.message.seq = y.receipt.message.seq →
      y.applied = false ∧ y.dump? = none ∧ y.after = y.before := by
  intro filed
  obtain ⟨hdid, hlater⟩ := file_did hslot henv
  have hkey : ∀ x ∈ filed, x.receipt.key = key := fun x hx =>
    of_decide_eq_true (List.mem_filter.1 hx).2
  have hlater := (hlater.filter (p := fun x => x.receipt.key = key)).imp_of_mem
    fun {x y} hx hy h => h (hkey x hx) (hkey y hy)
  refine ⟨fun x hx => ?_, ?_, ?_, ?_⟩
  · obtain ⟨r', hdid⟩ := hdid x (List.mem_filter.1 hx).1 (hkey x hx)
    refine ⟨hdid.answer, hdid.stats, fun hnot hdump => ?_⟩
    rcases hdid.cases with ⟨happlied, -⟩ | ⟨-, ⟨hsome, -⟩ | ⟨-, hsame⟩⟩
    · simp [hnot] at happlied
    · simp [hdump] at hsome
    · exact hsame
  · exact countP_le_one (hlater.imp fun h happlied => h.2 (.inl happlied))
  · cases hfiled : filed with
    | nil => simp
    | cons x rest =>
      intro y hy
      rw [show List.filter _ _ = x :: rest from hfiled] at hlater
      rcases ((List.pairwise_cons.1 hlater).1 y hy).1 with h | h <;> simp [h]
  · refine hlater.imp fun {x y} h hseq => ?_
    have hnot := h.2 (.inr hseq)
    rcases h.1 with ⟨happlied, -⟩ | hsame
    · simp [hnot] at happlied
    · exact hsame

/-- A copy that waits for a receipt gets an outdated one, its own and that again: the first has it saved,
the second applies, the third does nothing. -/
theorem applied_once_outdated_then_twice :
    let env : Env :=
      { engine := .plain .xchacha20Poly1305 Replica.defaultLimit, identity := none, now := 0 }
    let r : Replica := { Replica.fresh .contacts default with
      phase := .sent, seq := 2, unsaved := true }
    let d : Device := { copies := (∅ : Copies).insert ⟨"05", .contacts⟩ (.ready r) }
    let stored (seq : Int) (hash : String) : Receipt :=
      ⟨env, "05", ⟨.contacts, seq, [], some 7, none⟩, hash⟩
    let filed := d.file [stored 1 "h1", stored 2 "h2", stored 2 "h2"]
    filed.map (fun x => (x.applied, x.dump?.isSome)) =
        [(false, true), (true, true), (false, false)] ∧
      filed.countP (·.applied) ≤ 1 ∧ filed.all (·.answer.isOk) := by
  intro env r d stored filed
  have hkey : ∀ x ∈ filed, x.receipt.key = ⟨"05", .contacts⟩ := by decide +kernel
  have hslot : d.copies.find? ⟨"05", .contacts⟩ = some (.ready r) := rfl
  have henv : ∀ x ∈ [stored 1 "h1", stored 2 "h2", stored 2 "h2"], x.key = ⟨"05", .contacts⟩ →
      x.env.engine = .plain .xchacha20Poly1305 Replica.defaultLimit := by
    intro x hx _
    simp only [List.mem_cons, List.not_mem_nil, or_false] at hx
    rcases hx with rfl | rfl | rfl <;> rfl
  obtain ⟨heach, honce, -⟩ := applied_once hslot henv
  rw [List.filter_eq_self.2 fun x hx => decide_eq_true (hkey x hx)] at heach honce
  refine ⟨by decide +kernel, honce, List.all_eq_true.2 fun x hx => ?_⟩
  rw [(heach x hx).1]
  rfl

end Device

end AccountSync
