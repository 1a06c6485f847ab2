import Mathlib.Data.Int.Notation
import Mathlib.Logic.Function.Basic
import Mathlib.Tactic.Common
import N8n.TransitionSystem

/-! `MultiMainSetup` and `LeaderElectionClient`: any number of main instances, whose methods
interleave at their Redis commands. -/

namespace N8n.LeaderElection

inductive InstanceRole where
  | unset
  | leader
  | follower
  deriving DecidableEq

section Redis

inductive Command where
  | get
  | setIfNotExists
  | increaseTtlIfLeader
  | del
  deriving DecidableEq

inductive Reply where
  | nil
  | integer (value : ℤ)
  | text (value : String)
  deriving DecidableEq

/-- What a command of the instance with this `hostId` does to the key, and its reply. Extending the
TTL of a key that is there succeeds. -/
def execute (hostId : String) (leaderKey : Option String) : Command → Option String × Reply
  | .get => (leaderKey, leaderKey.elim .nil .text)
  | .setIfNotExists =>
    match leaderKey with
    | none => (some hostId, .text "OK")
    | some holder => (some holder, .nil)
  | .increaseTtlIfLeader =>
    match leaderKey with
    | none => (none, .integer (-1))
    | some holder => (some holder, if holder ≠ hostId then .text holder else .integer 1)
  | .del => (none, .integer (if leaderKey.isSome then 1 else 0))

inductive TtlRenewalResult where
  | keyMissing
  | otherHostIsLeader (currentLeaderId : String)
  | success
  deriving DecidableEq

/-- Without a reply the command failed. -/
def getLeader : Option Reply → Option (Option String)
  | some (.text leaderId) => some (some leaderId)
  | some .nil => some none
  | _ => none

def setLeaderIfNotExists (reply : Option Reply) : Option Bool :=
  reply.map fun reply => reply = .text "OK"

def tryRenewLeaderTtl : Option Reply → Option TtlRenewalResult
  | some (.integer result) =>
    if result = -1 ∨ result = 0 then some .keyMissing
    else if result = 1 then some .success
    else none
  | some (.text currentLeaderId) => some (.otherHostIsLeader currentLeaderId)
  | _ => none

end Redis

section Methods

inductive Point where
  /-- `setLeaderIfNotExists` in `init`. -/
  | init
  /-- `tryRenewLeaderTtl` in `checkAreWeStillLeader`. -/
  | renew
  /-- `setLeaderIfNotExists` in `checkAreWeStillLeader`. -/
  | reclaim
  /-- `getLeader` in `checkCanBecomeLeader`. -/
  | look
  /-- `setLeaderIfNotExists` in `checkCanBecomeLeader`. -/
  | claim
  /-- `clearLeader` in `shutdown`. -/
  | clear
  deriving DecidableEq

def Point.command : Point → Command
  | init | reclaim | claim => .setIfNotExists
  | renew => .increaseTtlIfLeader
  | look => .get
  | clear => .del

def Point.isCheck : Point → Bool
  | renew | reclaim | look | claim => true
  | init | clear => false

/-- A call that awaits a command, and its reply once Redis has executed it. -/
structure Task where
  point : Point
  reply : Option Reply := none

structure MultiMainSetup where
  instanceRole : InstanceRole := .unset
  leaderCheckInterval : Bool := false
  leaderCheckInProgress : Bool := false
  /-- `init` was called. -/
  started : Bool := false
  /-- The Redis client was destroyed. -/
  destroyed : Bool := false
  tasks : ℕ → Option Task := fun _ => none

namespace MultiMainSetup

variable (setup : MultiMainSetup)

def isLeader : Bool := setup.instanceRole = .leader

def markAsLeader : MultiMainSetup := { setup with instanceRole := .leader }

def markAsFollower : MultiMainSetup := { setup with instanceRole := .follower }

/-- `none` stands for a failed assertion, here and below. -/
def takeOverAsLeader : Option MultiMainSetup :=
  if setup.isLeader then none else some setup.markAsLeader

def stepDownToFollower : Option MultiMainSetup :=
  if setup.isLeader then some setup.markAsFollower else none

def await (id : ℕ) (point : Point) : MultiMainSetup :=
  { setup with tasks := Function.update setup.tasks id (some { point }) }

def checkLeader (id : ℕ) : MultiMainSetup :=
  if setup.leaderCheckInProgress then setup
  else { setup with leaderCheckInProgress := true }.await id (if setup.isLeader then .renew else .look)

def shutdown (id : ℕ) : MultiMainSetup :=
  let setup := { setup with leaderCheckInterval := false }
  if setup.isLeader then setup.await id .clear else { setup with destroyed := true }

/-- What a method does with the reply, and the await that it comes to, if it does not end. -/
def resume (hostId : String) (reply : Option Reply) : Point → Option (MultiMainSetup × Option Point)
  | .init => do
    let setup ← match setLeaderIfNotExists reply with
      | none => some setup.markAsFollower
      | some true => setup.takeOverAsLeader
      | some false => some setup.markAsFollower
    return ({ setup with leaderCheckInterval := true }, none)
  | .renew =>
    match tryRenewLeaderTtl reply with
    | none => return (setup, none)
    | some .success => return (setup, none)
    | some (.otherHostIsLeader _) => return (← setup.stepDownToFollower, none)
    | some .keyMissing => return (setup, some .reclaim)
  | .reclaim =>
    match setLeaderIfNotExists reply with
    | none => return (← setup.stepDownToFollower, none)
    | some false => return (← setup.stepDownToFollower, none)
    | some true => return (setup, none)
  | .look =>
    match getLeader reply with
    | none => return (setup, none)
    | some leaderId =>
      -- An empty text is no leader either.
      match leaderId.filter (· ≠ "") with
      | some leaderId =>
        if leaderId = hostId then return (← setup.takeOverAsLeader, none)
        else return (setup, none)
      | none => return (setup, some .claim)
  | .claim =>
    match setLeaderIfNotExists reply with
    | some true => return (← setup.takeOverAsLeader, none)
    | _ => return (setup, none)
  | .clear => return ({ setup with destroyed := true }, none)

/-- The method returns, or its failed assertion is thrown. -/
def finish (id : ℕ) (point : Point) : MultiMainSetup :=
  { setup with
    leaderCheckInProgress := setup.leaderCheckInProgress && !point.isCheck
    tasks := Function.update setup.tasks id none }

def proceed (hostId : String) (id : ℕ) (point : Point) (reply : Option Reply) : MultiMainSetup :=
  match setup.resume hostId reply point with
  | none => setup.finish id point
  | some (setup, none) => setup.finish id point
  | some (setup, some point) => setup.await id point

end MultiMainSetup

end Methods

section System

variable {Instance : Type} [DecidableEq Instance] (hostId : Instance → String)

structure State (Instance : Type) where
  leaderKey : Option String
  instances : Instance → MultiMainSetup := fun _ => {}
  /-- Commands that their callers have given up, but Redis may still receive. -/
  late : List (Instance × Command) := []

inductive Event (Instance : Type) where
  | init (host : Instance) (id : ℕ)
  | check (host : Instance) (id : ℕ)
  | shutdown (host : Instance) (id : ℕ)
  /-- Redis executes the command of the call. -/
  | execute (host : Instance) (id : ℕ)
  | executeLate (index : ℕ)
  /-- The reply arrives. -/
  | answer (host : Instance) (id : ℕ)
  /-- The command fails for its caller, by a timeout or a lost connection. -/
  | fail (host : Instance) (id : ℕ)
  | expire

variable (state : State Instance)

def State.task (host : Instance) (id : ℕ) : Option Task := (state.instances host).tasks id

def State.update (host : Instance) (setup : MultiMainSetup) : State Instance :=
  { state with instances := Function.update state.instances host setup }

def step : Event Instance → Option (State Instance)
  | .init host id =>
    let setup := state.instances host
    if setup.started || (setup.tasks id).isSome then none
    else some (state.update host ({ setup with started := true }.await id .init))
  | .check host id =>
    let setup := state.instances host
    if !setup.leaderCheckInterval || (setup.tasks id).isSome then none
    else some (state.update host (setup.checkLeader id))
  | .shutdown host id =>
    let setup := state.instances host
    if (setup.tasks id).isSome then none
    else some (state.update host (setup.shutdown id))
  | .execute host id =>
    match state.task host id with
    | some { point, reply := none } =>
      let setup := state.instances host
      let (leaderKey, reply) := execute (hostId host) state.leaderKey point.command
      some ({ state with leaderKey }.update host
        { setup with tasks := Function.update setup.tasks id (some { point, reply }) })
    | _ => none
  | .executeLate index =>
    match state.late[index]? with
    | some (host, command) =>
      some { state with
        leaderKey := (execute (hostId host) state.leaderKey command).1
        late := state.late.eraseIdx index }
    | none => none
  | .answer host id =>
    match state.task host id with
    | some { point, reply := some reply } =>
      let setup := state.instances host
      if setup.destroyed then none
      else some (state.update host (setup.proceed (hostId host) id point (some reply)))
    | _ => none
  | .fail host id =>
    match state.task host id with
    | some { point, reply } =>
      let setup := state.instances host
      some ({ state with
        late := if reply.isNone then (host, point.command) :: state.late else state.late }.update
          host (setup.proceed (hostId host) id point none))
    | none => none
  | .expire => some { state with leaderKey := none }

def system (leaderKey : Option String) : TransitionSystem (State Instance) (Event Instance) where
  init := { leaderKey }
  step := step hostId

def performs : Event Instance → Option (Instance × Command)
  | .execute host id => (state.task host id).map fun task => (host, task.point.command)
  | .executeLate index => state.late[index]?
  | _ => none

end System

end N8n.LeaderElection
