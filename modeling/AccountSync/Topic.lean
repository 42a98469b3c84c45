/-!
The topics of an account: the four configs that every account keeps in step between its devices.
-/

namespace AccountSync

/-- What a config is about. -/
inductive Topic where
  | userProfile
  | contacts
  | convoInfoVolatile
  | userGroups
  deriving DecidableEq, Repr, Inhabited

namespace Topic

/-- Every topic, in the order of the layouts. An account's own device keeps all of them. -/
def all : List Topic := [userProfile, contacts, convoInfoVolatile, userGroups]

/-- The place in `all`. -/
def index : Topic → Nat
  | userProfile => 0
  | contacts => 1
  | convoInfoVolatile => 2
  | userGroups => 3

/-- When several topics change at once, the ones of lower rank go first: the volatile conversation
info may mention names from the others. -/
def rank : Topic → Nat
  | userProfile | contacts => 0
  | userGroups => 1
  | convoInfoVolatile => 2

/-- Every topic by rank, those of one rank as in `all`. -/
def byRank : List Topic := [userProfile, contacts, userGroups, convoInfoVolatile]

/-- The name under which a topic is stored. -/
def tag : Topic → String
  | userProfile => "userProfile"
  | contacts => "contacts"
  | convoInfoVolatile => "convoInfoVolatile"
  | userGroups => "userGroups"

/-- The topic with a stored name. -/
def ofTag? (s : String) : Option Topic := all.find? fun t => t.tag == s

/-- The swarm keeps the messages of each topic in a mailbox of its own. -/
def mailbox : Topic → Nat
  | userProfile => 2
  | contacts => 3
  | convoInfoVolatile => 4
  | userGroups => 5

/-- The title of a topic, which is also the domain that its messages are encrypted under. -/
def title : Topic → String
  | userProfile => "UserProfile"
  | contacts => "Contacts"
  | convoInfoVolatile => "ConvoInfoVolatile"
  | userGroups => "UserGroups"

theorem mem_all (t : Topic) : t ∈ all := by cases t <;> decide

theorem mem_byRank (t : Topic) : t ∈ byRank := by cases t <;> decide

theorem ofTag?_tag (t : Topic) : ofTag? t.tag = some t := by cases t <;> decide

theorem tag_inj {a b : Topic} (h : a.tag = b.tag) : a = b := by
  have ha := ofTag?_tag a
  rw [h, ofTag?_tag] at ha
  exact (Option.some.inj ha).symm

end Topic

end AccountSync
