import Mimic.Network.ChannelLife

/-!
# Typing on a terminal

A display that holds the terminal gets the keystrokes until it quits. Who gets them is decided once
for each delivery: a display that is opened by the bytes of a delivery gets none of the bytes behind
them. So it depends on the cuts between deliveries what a display sees, and it does where a display
is left open by the bytes that opened it, and nowhere else (`data_append_iff`).
-/

namespace Mimic

namespace Connection

open Interp Outcomes

/-! ### Displays -/

theorem ScreenHold.input_kind {hold hold' : ScreenHold} {byte : UInt8}
    (h : hold.input byte = some hold') : hold'.kind = hold.kind := by
  have hvi : viScreenInput hold byte = some hold' → hold'.kind = hold.kind := by
    intro h
    rw [viScreenInput] at h
    repeat' split at h
    all_goals cases h
    all_goals rfl
  rw [ScreenHold.input] at h
  split at h
  · split at h <;> cases h
    rfl
  · split at h <;> cases h
    rfl
  · split at h <;> cases h
    rfl
  · exact hvi h

/-- Ctrl-C quits every display. -/
theorem ScreenHold.input_interrupt (hold : ScreenHold) : hold.input 0x03 = none := by
  rw [ScreenHold.input]
  split <;> rfl

theorem ScreenHold.drive_interrupt (hold : ScreenHold) : hold.drive [0x03] = (none, []) := by
  rw [ScreenHold.drive, hold.input_interrupt]

theorem ScreenHold.drive_kind {hold hold' : ScreenHold} {bytes : Bytes}
    (h : (hold.drive bytes).1 = some hold') : hold'.kind = hold.kind := by
  induction bytes generalizing hold with
  | nil => cases h; rfl
  | cons byte bytes ih =>
    rw [ScreenHold.drive] at h
    split at h
    · rename_i next hnext
      exact (ih h).trans (ScreenHold.input_kind hnext)
    · cases h

theorem ScreenHold.drive_append (hold : ScreenHold) (a b : Bytes) :
    hold.drive (a ++ b) =
      match hold.drive a with
      | (some held, _) => held.drive b
      | (none, rest) => (none, rest ++ b) := by
  induction a generalizing hold with
  | nil => rfl
  | cons byte a ih =>
    rw [List.cons_append, ScreenHold.drive, ScreenHold.drive]
    rcases hold.input byte with - | next
    · rfl
    · exact ih next

/-- The editor is not done with Ctrl-C. -/
theorem editor_interrupt (e : LineEditor) :
    (e.input 0x03).1 = .ignore ∨ ∃ bytes, (e.input 0x03).1 = .write bytes := by
  rw [LineEditor.input]
  split
  · exact .inl rfl
  · exact .inl rfl
  · exact .inr ⟨_, rfl⟩
  · exact .inr ⟨_, rfl⟩

/-! ### Deliveries -/

/-- The channel runs a shell on a terminal. -/
structure OnTerminal (channel : UInt32) (h : MimicHandler) : Prop where
  activeChannel : h.activeChannel = some channel
  pty : h.pty = true
  sftp : h.sftp = none
  scp : h.scp = none

/-- The display that holds the terminal stays through some bytes. -/
def HeldThrough (h : MimicHandler) (bytes : Bytes) : Prop :=
  ∃ hold held, h.screen = some hold ∧ (hold.drive bytes).1 = some held

section Deliveries

variable {config : Config} {host : Host} {channel : UInt32} {h t : MimicHandler} {a : Bytes}

theorem OnTerminal.of_sameChannel (hh : OnTerminal channel h) (ht : SameChannel h t) :
    OnTerminal channel t where
  activeChannel := ht.activeChannel.trans hh.activeChannel
  pty := ht.pty.trans hh.pty
  sftp := by
    have := ht.sftp
    rw [hh.sftp] at this
    exact Option.not_isSome_iff_eq_none.mp (by rw [this]; exact nofun)
  scp := by
    have := ht.scp
    rw [hh.scp] at this
    exact Option.not_isSome_iff_eq_none.mp (by rw [this]; exact nofun)

theorem OnTerminal.data_eq (hh : OnTerminal channel h) (bytes : Bytes) :
    data config host channel bytes h = feedTty config host channel bytes h := by
  rw [Connection.data_eq, hh.sftp, hh.scp]
  exact if_pos hh.pty

theorem feedTty_eq (bytes : Bytes) :
    feedTty config host channel bytes h =
      match h.screen with
      | none => inputBytes config host channel bytes h
      | some hold =>
        match hold.drive bytes with
        | (some held, _) => (.ok (), { h with screen := some held })
        | (none, rest) =>
          let farewell := match hold.kind with | .listen => "^C\n".toList | _ => screenHome
          inputBytes config host channel rest
            (({ h with screen := none }.data channel (h.out farewell)).drawPrompt config host
              channel) := by
  rw [feedTty, bind_apply]
  show (match h.screen with | none => _ | some _ => _ : Act Unit) h = _
  rcases h.screen with - | hold
  · rfl
  · dsimp only
    rcases hold.drive bytes with ⟨- | held, rest⟩
    · rfl
    · rfl

/-- The loop goes on where it stopped. -/
theorem inputBytes_append (ha : inputBytes config host channel a h = (.ok (), t))
    (hopen : t.activeChannel = some channel) :
    SameChannel h t ∧ ∀ b, inputBytes config host channel (a ++ b) h =
      inputBytes config host channel b t := by
  induction a generalizing h with
  | nil =>
    cases ha
    exact ⟨Sameness.refl _, fun b ↦ rfl⟩
  | cons byte a ih =>
    rw [inputBytes, bind_apply] at ha
    have hbyte := inputByte_ends config host channel byte h
    rcases hr : inputByte config host channel byte h with ⟨e | ended, u⟩
    · rw [hr] at ha
      cases ha
    rw [hr] at ha
    have hu := ensures_ok hr hbyte
    cases ended with
    | true =>
      cases ha
      exact absurd hopen hu.activeChannel
    | false =>
      obtain ⟨hsame, hrest⟩ := ih ha
      refine ⟨Sameness.trans hu hsame, fun b ↦ ?_⟩
      rw [List.cons_append, inputBytes, bind_apply, hr]
      exact hrest b

variable (config host channel) in
/-- Ctrl-C leaves a display alone that was opened by the same delivery. -/
theorem inputByte_interrupt (h : MimicHandler) :
    ∃ t, inputByte config host channel 0x03 h = (.ok false, t) ∧ t.screen = h.screen := by
  rw [inputByte_eq]
  rcases h.passwordBuf with - | typed
  · dsimp only
    rw [inputLine_eq]
    have hreact := editor_interrupt h.editor
    generalize h.editor.input 0x03 = reacted at hreact ⊢
    obtain ⟨reaction, editor⟩ := reacted
    rcases hreact with rfl | ⟨bytes, rfl⟩
    · exact ⟨_, rfl, rfl⟩
    · exact ⟨_, rfl, rfl⟩
  · exact ⟨_, rfl, rfl⟩

/-- **Cuts in terminal input.** What comes behind `a` has the same effect in the same delivery and
in one of its own, whatever it is, if and only if a display that is up behind `a` was up all
through it. -/
theorem data_append_iff (hh : OnTerminal channel h)
    (ha : data config host channel a h = (.ok (), t)) (hopen : t.activeChannel = some channel) :
    (∀ b, data config host channel (a ++ b) h =
        (data config host channel a >>= fun _ ↦ data config host channel b) h) ↔
      (t.screen.isSome → HeldThrough h a) := by
  rw [hh.data_eq, feedTty_eq] at ha
  have happend : ∀ b, (data config host channel (a ++ b) h =
      (data config host channel a >>= fun _ ↦ data config host channel b) h) ↔
      feedTty config host channel (a ++ b) h = data config host channel b t := by
    intro b
    rw [bind_apply, hh.data_eq, hh.data_eq a, feedTty_eq a, ha]
  rw [forall_congr' happend]
  -- what is typed to the editor goes on in the same delivery as it does without a display
  have hloop : ∀ {c : Bytes} {u : MimicHandler}, inputBytes config host channel c u = (.ok (), t) →
      SameChannel h u → (∀ b, feedTty config host channel (a ++ b) h =
        inputBytes config host channel (c ++ b) u) →
      ¬ HeldThrough h a →
      ((∀ b, feedTty config host channel (a ++ b) h = data config host channel b t) ↔
        (t.screen.isSome → HeldThrough h a)) := by
    intro c u hc hu hfeed hnot
    obtain ⟨hsame, hrest⟩ := inputBytes_append hc hopen
    have ht : OnTerminal channel t := hh.of_sameChannel (Sameness.trans hu hsame)
    constructor
    · intro hall hup
      obtain ⟨hold, hhold⟩ := Option.isSome_iff_exists.mp hup
      have hctrl := hall [0x03]
      obtain ⟨v, hv, hscreen⟩ := inputByte_interrupt config host channel t
      rw [hfeed, hrest, inputBytes, bind_apply, hv, ht.data_eq, feedTty_eq, hhold] at hctrl
      dsimp only at hctrl
      rw [ScreenHold.drive_interrupt] at hctrl
      have hgone := congrArg (fun r ↦ r.2.screen) hctrl
      have hstill : v.screen = none := hgone
      rw [hscreen, hhold] at hstill
      cases hstill
    · intro hnone b
      have hdown : t.screen = none := Option.not_isSome_iff_eq_none.mp fun hup ↦ hnot (hnone hup)
      rw [hfeed, hrest, ht.data_eq, feedTty_eq, hdown]
  rcases hscreen : h.screen with - | hold
  · rw [hscreen] at ha
    refine hloop ha (Sameness.refl h) (fun b ↦ ?_) fun hheld ↦ ?_
    · rw [feedTty_eq, hscreen]
    · obtain ⟨hold, -, hhold, -⟩ := hheld
      rw [hscreen] at hhold
      cases hhold
  · rw [hscreen] at ha
    dsimp only at ha
    rcases hdrive : hold.drive a with ⟨- | held, rest⟩
    · rw [hdrive] at ha
      refine hloop ha ⟨⟨rfl, rfl⟩, rfl, rfl, rfl⟩ (fun b ↦ ?_) fun hheld ↦ ?_
      · rw [feedTty_eq, hscreen]
        dsimp only
        rw [ScreenHold.drive_append, hdrive]
      · obtain ⟨hold', held, hhold, hup⟩ := hheld
        cases hscreen.symm.trans hhold
        rw [hdrive] at hup
        cases hup
    · rw [hdrive] at ha
      cases ha
      have hheld : HeldThrough h a := ⟨hold, held, hscreen, by rw [hdrive]⟩
      refine iff_of_true (fun b ↦ ?_) fun _ ↦ hheld
      have ht : OnTerminal channel { h with screen := some held } :=
        hh.of_sameChannel ⟨⟨rfl, rfl⟩, rfl, rfl, rfl⟩
      have hkind : held.kind = hold.kind := ScreenHold.drive_kind (by rw [hdrive])
      rw [ht.data_eq, feedTty_eq, feedTty_eq, hscreen]
      dsimp only
      rw [ScreenHold.drive_append, hdrive]
      dsimp only
      rcases held.drive b with ⟨- | last, rest'⟩
      · dsimp only
        rw [hkind]
        rfl
      · rfl

end Deliveries

/-- A host where every command opens a display. -/
def topHost : Host :=
  { bareHost with
    isCommand := fun _ ↦ true
    command := fun _ _ s ↦ { s.report (.ok []) with screen := some (.top ⟨[], 0, 0⟩) } }

/-- `top` and Enter. -/
def topLine : Bytes := [0x74, 0x6f, 0x70, 0x0d]

theorem onTerminal_topHost : OnTerminal 0 (reached topHost openTerminal) :=
  ⟨by decide +kernel, by decide +kernel, Option.isNone_iff_eq_none.mp (by decide +kernel),
    Option.isNone_iff_eq_none.mp (by decide +kernel)⟩

theorem data_append_iff_top : ∃ t, data bareConfig topHost 0 topLine
    (reached topHost openTerminal) =
      (.ok (), t) ∧
    ((∀ b, data bareConfig topHost 0 (topLine ++ b) (reached topHost openTerminal) =
        (data bareConfig topHost 0 topLine >>= fun _ ↦ data bareConfig topHost 0 b)
          (reached topHost openTerminal)) ↔
      (t.screen.isSome → HeldThrough (reached topHost openTerminal) topLine)) := by
  obtain ⟨⟨⟩, t, ht, hopen⟩ := returns_of_any (m := data bareConfig topHost 0 topLine)
    (s := reached topHost openTerminal) (p := fun _ t ↦ t.activeChannel = some 0)
    (by decide +kernel)
  exact ⟨t, ht, data_append_iff onTerminal_topHost ht (of_decide_eq_true hopen)⟩

/-- `top`, Enter and `q` in one delivery leave the display up, which a `q` behind it quits. -/
theorem cut_matters :
    ¬ data bareConfig topHost 0 (topLine ++ [0x71]) (reached topHost openTerminal) =
      (data bareConfig topHost 0 topLine >>= fun _ ↦ data bareConfig topHost 0 [0x71])
        (reached topHost openTerminal) := by
  intro h
  have hscreen := congrArg (fun r ↦ r.2.screen) h
  exact absurd hscreen (by decide +kernel)

end Connection

end Mimic
