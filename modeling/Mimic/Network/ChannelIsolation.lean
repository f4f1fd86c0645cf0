import Mimic.Foundation.GuardedRun
import Mimic.Network.ChannelLife

/-!
# One channel after the other

One handler serves the channels of a connection, one at a time, and `close_channel` resets what
belongs to the channel. Two fields that a channel sets are not reset: the terminal it asked for, and
the locale variables that were accepted. Where two histories leave the same there, a later channel
behaves in the same way behind both (`channels_isolated`).
-/

namespace Mimic

namespace Connection

open Interp Outcomes GuardedRun

/-- The connection with nothing sent and nothing logged. -/
def MimicHandler.flushed (h : MimicHandler) : MimicHandler := { h with replies := [], logged := [] }

/-- The connection behind a call, with what the call has sent and logged. -/
def step (config : Config) (e : Event) (h : MimicHandler) : MimicHandler :=
  (handle config e h.flushed).2

/-- What is sent in a run, up to a call that stops. -/
def emitted (config : Config) : List Event → MimicHandler → List (UInt32 × Reply)
  | [], _ => []
  | e :: es, h =>
    (step config e h).replies ++
      if (handle config e h.flushed).1.isOk then emitted config es (step config e h) else []

/-- The opening of a channel. -/
def Call.opens : Call → Bool
  | .channelOpenSession => true
  | _ => false

/-- A call that returns, and that is for the channel that is open unless it asks for one. -/
structure Orderly (config : Config) (e : Event) (h : MimicHandler) : Prop where
  returns : (handle config e h.flushed).1.isOk
  onOpen : e.call.opens ∨ h.activeChannel = some e.channel

instance (config : Config) (e : Event) (h : MimicHandler) : Decidable (Orderly config e h) :=
  decidable_of_iff ((handle config e h.flushed).1.isOk ∧
    (e.call.opens ∨ h.activeChannel = some e.channel)) ⟨fun h ↦ ⟨h.1, h.2⟩, fun h ↦ ⟨h.1, h.2⟩⟩

/-- A connection of this user without an open channel has released the last one. -/
structure Tidy (username : Str) (h : MimicHandler) : Prop where
  username : h.username = username
  released : h.activeChannel = none → Released h

section Steps

variable {config : Config} {username : Str} {e : Event} {h t : MimicHandler}

theorem tidy_new (username : Str) : Tidy username (.new username) := ⟨rfl, fun _ ↦ rfl⟩

/-- **One call.** -/
theorem tidy_step (he : Orderly config e h) (hh : Tidy username h) :
    Tidy username (step config e h) := by
  obtain ⟨returns, onOpen⟩ := he
  by_cases hopens : e.call = .channelOpenSession
  · have hstep : step config e h = h.flushed.tryOpenChannel e.channel := by
      rw [step, handle, hopens]
      rfl
    rw [hstep, MimicHandler.tryOpenChannel]
    split
    · rename_i hsome
      refine ⟨hh.username, fun hnone ↦ ?_⟩
      have hactive : h.activeChannel = none := hnone
      rw [show h.flushed.activeChannel = h.activeChannel from rfl, hactive] at hsome
      cases hsome
    · refine ⟨hh.username, fun hnone ↦ ?_⟩
      cases hnone
  · have hactive : h.activeChannel = some e.channel := by
      refine onOpen.resolve_left fun h ↦ hopens ?_
      cases hcall : e.call <;> rw [hcall] at h <;> first | rfl | cases h
    rcases hr : handle config e h.flushed with ⟨stop | ⟨⟩, t⟩
    · rw [hr] at returns
      cases returns
    have hstep : step config e h = t := by rw [step, hr]
    rw [hstep]
    rcases ensures_ok hr (handle_leaves config hopens h.flushed) with hclosed | hsame
    · exact ⟨hclosed.username.trans hh.username, fun _ ↦ hclosed.released hactive⟩
    · refine ⟨hsame.username.trans hh.username, fun hnone ↦ ?_⟩
      cases (hsame.activeChannel.trans hactive).symm.trans hnone

/-- **A whole run.** -/
theorem tidy_run {es : List Event}
    (hrun : Admissible (step config) (Orderly config) (.new username) es) :
    Tidy username (run (step config) (.new username) es) :=
  invariant_run hrun (fun _ _ he hh ↦ tidy_step he hh) (tidy_new username)

/-- What is sent depends on neither the replies nor the log before it. -/
theorem emitted_of_flushed (hflushed : h.flushed = t.flushed) (es : List Event) :
    emitted config es h = emitted config es t := by
  cases es with
  | nil => rfl
  | cons e es => rw [emitted, emitted, step, step, hflushed]

/-- **Channels are isolated**, but for the terminal and the locale: where two histories leave the
same of these, what comes behind them has the same replies. -/
theorem channels_isolated {es es' : List Event}
    (hrun : Admissible (step config) (Orderly config) (.new username) es)
    (hrun' : Admissible (step config) (Orderly config) (.new username) es')
    (hclosed : (run (step config) (.new username) es).activeChannel = none)
    (hclosed' : (run (step config) (.new username) es').activeChannel = none)
    (hterm : (run (step config) (.new username) es).ptyTerm =
      (run (step config) (.new username) es').ptyTerm)
    (henv : (run (step config) (.new username) es).acceptedEnv =
      (run (step config) (.new username) es').acceptedEnv) (future : List Event) :
    emitted config future (run (step config) (.new username) es) =
      emitted config future (run (step config) (.new username) es') := by
  have htidy := tidy_run hrun
  have htidy' := tidy_run hrun'
  refine emitted_of_flushed ?_ future
  generalize run (step config) (.new username) es = h at *
  generalize run (step config) (.new username) es' = t at *
  rw [htidy.released hclosed, htidy'.released hclosed', htidy.username, htidy'.username, hterm,
    henv]
  rfl

end Steps

/-- A host where every command prints the name of the terminal. -/
def termHost : Host :=
  { bareHost with
    isCommand := fun _ ↦ true
    command := fun _ _ s ↦ s.report (.ok (s.env["TERM".toList]?.getD [])) }

/-- A channel that runs a command. -/
def execChannel : List Event :=
  [⟨termHost, 1, .channelOpenSession⟩, ⟨termHost, 1, .execRequest [0x78]⟩]

/-- A channel with a terminal, which is closed again. -/
def terminalChannel : List Event :=
  [⟨termHost, 0, .channelOpenSession⟩, ⟨termHost, 0, .ptyRequest "vt100".toList 80 24⟩,
    ⟨termHost, 0, .channelClose⟩]

theorem channels_isolated_exec :
    emitted bareConfig execChannel (run (step bareConfig) (.new "root".toList) execChannel) =
      emitted bareConfig execChannel (run (step bareConfig) (.new "root".toList) []) :=
  have hnone : Admissible (step bareConfig) (Orderly bareConfig) (.new "root".toList) [] := trivial
  channels_isolated (by decide +kernel) hnone (by decide +kernel) rfl (by decide +kernel)
    (by decide +kernel) execChannel

/-- A command on a later channel runs on the terminal of a closed one. -/
theorem terminal_left :
    Admissible (step bareConfig) (Orderly bareConfig) (.new "root".toList) terminalChannel ∧
    (run (step bareConfig) (.new "root".toList) terminalChannel).activeChannel = none ∧
    emitted bareConfig execChannel
        (run (step bareConfig) (.new "root".toList) terminalChannel) ≠
      emitted bareConfig execChannel (run (step bareConfig) (.new "root".toList) []) := by
  decide +kernel

end Connection

end Mimic
