import Mimic.Shell.Invariants

/-!
# Who the session is

Three fields say who the user is: the name, which the prompt shows, and the two ids. `su`, `sudo -i`
and a login set all three to values that agree. `sudo` with a command sets the ids only, and puts
the old ones back when the command ends, whoever the session is then.
-/

namespace Mimic

namespace Interp

open Outcomes

/-! ### `su` and the start of a session -/

/-- The loop of `su` over its arguments. -/
def suTarget (target : Option Str) : List Str → Option Str
  | [] => target
  | arg :: args =>
    if arg = "-c".toList ∨ arg = "--command".toList ∨ arg = "-s".toList ∨ arg = "--shell".toList ∨
        arg = "-g".toList ∨ arg = "--group".toList then
      -- takes a value
      match args with
      | [] => target
      | _ :: args => suTarget target args
    else if arg.head? = some '-' then suTarget target args
    else suTarget (some arg) args

/-- `su`: switch the identity, for root at once, for others behind a password prompt. -/
def su (now : Timestamp) (args : List Str) (s : Shell) : Effect :=
  let target := (suTarget none args).getD "root".toList
  if s.uid = 0 then (switchUser now target s).report (.ok [])
  else { s.report (.ok "Password: ".toList) with pending := some (.suPassword target) }

/-- The host with the source's `su`. No other of its commands assigns the name or the ids. -/
def Host.withSu (host : Host) : Host :=
  { host with
    isCommand := fun cmd ↦ cmd = "su".toList || host.isCommand cmd
    command := fun cmd args s ↦
      if cmd = "su".toList then su host.now args s
      else { host.command cmd args s with username := s.username, uid := s.uid, gid := s.gid } }

/-! ### Coherence -/

/-- The name and the ids agree on whether the user is root. -/
def Coherent (s : Shell) : Prop :=
  (s.uid = 0 ↔ s.gid = 0) ∧ (s.uid = 0 ↔ s.username = "root".toList)

/-- The same ids, and a name that is root's if it was before. -/
def Steady (s t : Shell) : Prop :=
  t.uid = s.uid ∧ t.gid = s.gid ∧ (t.username = "root".toList ↔ s.username = "root".toList)

/-- If the event is the end of a command of `sudo`, it has not made root of another user, or another
user of root. -/
def Event.settled : Event → Bool
  | .elevated before after => (after = "root".toList) = (before = "root".toList)
  | _ => true

/-- No command of `sudo` made root of another user, or another user of root. -/
def Settled (tr : List Event) : Prop := ∀ e ∈ tr, e.settled

/-- From `s` to `t` the user stayed, or there is a new one. -/
def Identified (s t : Shell) : Prop :=
  ∃ tr, t.trace = s.trace ++ tr ∧ (Settled tr → Steady s t ∨ Coherent t)

section Coherence

variable {s t u : Shell}

theorem Steady.refl (s : Shell) : Steady s s := ⟨rfl, rfl, Iff.rfl⟩

theorem Steady.trans (h : Steady s t) (h' : Steady t u) : Steady s u :=
  ⟨h'.1.trans h.1, h'.2.1.trans h.2.1, h'.2.2.trans h.2.2⟩

theorem Steady.coherent (h : Steady s t) (hs : Coherent s) : Coherent t := by
  rw [Coherent, h.1, h.2.1, h.2.2]
  exact hs

theorem coherent_switchUser (now : Timestamp) (user : Str) (s : Shell) :
    Coherent (switchUser now user s) := by
  simp only [Coherent, switchUser]
  split <;> simp_all

theorem coherent_withPersona (now : Timestamp) (snapshot : Vfs) (username hostname : Str) :
    Coherent (Shell.withPersona now snapshot username hostname) := by
  simp only [Coherent, Shell.withPersona]
  split <;> simp_all

theorem settled_append {a b : List Event} : Settled (a ++ b) ↔ Settled a ∧ Settled b :=
  List.forall_mem_append

namespace Identified

/-- Events that say nothing of the user. -/
theorem of_steady (tr : List Event) (htr : t.trace = s.trace ++ tr) (h : Steady s t) :
    Identified s t := ⟨tr, htr, fun _ ↦ .inl h⟩

theorem of_coherent (tr : List Event) (htr : t.trace = s.trace ++ tr) (h : Coherent t) :
    Identified s t := ⟨tr, htr, fun _ ↦ .inr h⟩

theorem trans (h : Identified s t) (h' : Identified t u) : Identified s u := by
  obtain ⟨a, hst, ha⟩ := h
  obtain ⟨b, htu, hb⟩ := h'
  refine ⟨a ++ b, by rw [htu, hst, List.append_assoc], fun hset ↦ ?_⟩
  obtain ⟨hseta, hsetb⟩ := settled_append.mp hset
  rcases hb hsetb with hsteady | hcoherent
  · exact (ha hseta).imp (·.trans hsteady) hsteady.coherent
  · exact .inr hcoherent

/-- A subshell ends. -/
theorem rejoin (h : Identified s t) : Identified s (t.asUser s.username s.uid s.gid) := by
  obtain ⟨tr, htr, -⟩ := h
  exact .of_steady _ htr ⟨rfl, rfl, Iff.rfl⟩

/-- The command of `sudo` ends. If it left the user, so does `sudo`; if there is a new one that is
root exactly if the old one was, then the old ids are right for it. -/
theorem elevated (h : Identified (s.asUser s.username 0 0) t) : Identified s
    ((t.asUser t.username s.uid s.gid).log (.elevated s.username t.username)) := by
  obtain ⟨tr, htr, -⟩ := h
  refine ⟨tr ++ [.elevated s.username t.username], ?_, fun hset ↦ .inl ⟨rfl, rfl, ?_⟩⟩
  · show t.trace ++ _ = _
    rw [htr]
    exact List.append_assoc ..
  · have hend := hset _ (List.mem_append_right _ (List.mem_singleton_self _))
    simpa [Event.settled, Shell.asUser, Shell.log] using hend

theorem refl (s : Shell) : Identified s s := of_steady _ (List.append_nil _).symm (.refl s)

/-- An event does not change the user. -/
theorem log (s : Shell) (e : Event) : Identified s (s.log e) := of_steady _ rfl ⟨rfl, rfl, Iff.rfl⟩

theorem apply (host : Host) (cmd : Str) (args : List Str) (s : Shell) :
    Identified s (s.apply (host.withSu.command cmd args s)) := by
  simp only [Host.withSu]
  split
  · rw [su]
    split
    · have hnew := coherent_switchUser host.now ((suTarget none args).getD "root".toList) s
      exact .of_coherent _ rfl hnew
    · exact .of_steady _ rfl ⟨rfl, rfl, Iff.rfl⟩
  · exact .of_steady _ rfl ⟨rfl, rfl, Iff.rfl⟩

theorem of_lines {lines rest : List Str} (h : Lines Identified lines rest s t) :
    Identified s t := by
  induction h with
  | done => exact refl _
  | skip _ _ ih => exact ih
  | run _ hline _ ih => exact ((log _ _).trans hline).trans ih

end Identified

end Coherence

/-- In every run the user stays, or there is a new one. -/
theorem identified_invariant (host : Host) :
    Invariant host.withSu (fun _ _ ↦ True) Identified where
  refl := .refl
  trans h h' := h.trans h'
  stops _ := trivial
  transStops _ _ := trivial
  quiet {s t} h := by
    simp only [Shell.watched, Prod.mk.injEq] at h
    obtain ⟨htrace, hname, huid, hgid⟩ := h
    exact .of_steady [] (by rw [htrace, List.append_nil]) ⟨huid, hgid, by rw [hname]⟩
  log s e _ := .log s e
  apply := .apply host
  switchUser user s := .of_coherent [] (List.append_nil _).symm (coherent_switchUser _ _ _)
  rejoin h := h.rejoin
  elevated h := h.elevated
  elevatedStops _ := trivial
  script _ h := (Identified.log _ _).trans (.of_lines h)
  left _ h _ hu :=
    (((Identified.log _ _).trans (.of_lines h)).trans ((Identified.log _ _).trans hu)).trans
      (.log _ _)
  scriptStops _ _ _ _ := trivial

/-! ### Runs of a session -/

/-- The sessions that inputs bring about from a login on, as long as no command of `sudo` makes root
of another user or another user of root. Each input has its own time and commands. -/
inductive Session (snapshot : Vfs) : Shell → Prop
  | start (now : Timestamp) (username hostname : Str) :
    Session snapshot (Shell.withPersona now snapshot username hostname)
  | input (host : Host) (input : Input) {s t : Shell} {out : Option Output} {tr : List Event}
    (hs : Session snapshot s) (h : input.process host.withSu s = (.ok out, t))
    (htr : t.trace = s.trace ++ tr) (hset : Settled tr) : Session snapshot t
  /-- The network layer takes captures and displays, and sets variables of the environment. -/
  | attended {s t : Shell} (hs : Session snapshot s) (h : t.watched = s.watched) :
    Session snapshot t

/-- One input. -/
theorem coherent_process {host : Host} {input : Input} {s t : Shell} {out : Option Output}
    {tr : List Event} (hs : Coherent s) (h : input.process host.withSu s = (.ok out, t))
    (htr : t.trace = s.trace ++ tr) (hset : Settled tr) : Coherent t := by
  obtain ⟨tr', htr', hident⟩ := ensures_ok h ((identified_invariant host).process input s)
  obtain rfl := List.append_cancel_left (htr.symm.trans htr')
  exact (hident hset).elim (·.coherent hs) id

/-- **Coherence of the identity.** Between the inputs of a session the name and both ids agree on
whether the user is root. -/
theorem session_coherent {snapshot : Vfs} {s : Shell} (h : Session snapshot s) :
    (s.uid = 0 ↔ s.gid = 0) ∧ (s.uid = 0 ↔ s.username = "root".toList) := by
  induction h with
  | start => exact coherent_withPersona _ _ _ _
  | input host input _ h htr hset ih => exact coherent_process ih h htr hset
  | attended _ h ih =>
    simp only [Shell.watched, Prod.mk.injEq] at h
    obtain ⟨-, hname, huid, hgid⟩ := h
    rwa [hname, huid, hgid]

/-- The login of a user that is not root. -/
def bob : Shell := Shell.withPersona 0 (Vfs.new 0) "bob".toList "debian".toList

/-- The user runs a command with the ids of root. -/
theorem session_coherent_sudo :
    ((((Input.line "sudo true".toList).process bareHost.withSu bob).2.uid = 0 ↔
      ((Input.line "sudo true".toList).process bareHost.withSu bob).2.gid = 0) ∧
    (((Input.line "sudo true".toList).process bareHost.withSu bob).2.uid = 0 ↔
      ((Input.line "sudo true".toList).process bareHost.withSu bob).2.username =
        "root".toList)) := by
  have hok : ((Input.line "sudo true".toList).process bareHost.withSu bob).1.isOk := by
    decide +kernel
  have hset : ((Input.line "sudo true".toList).process bareHost.withSu bob).2.trace.all
      Event.settled := by decide +kernel
  rcases hx : (Input.line "sudo true".toList).process bareHost.withSu bob with ⟨e | out, t⟩
  · rw [hx] at hok
    cases hok
  · rw [hx] at hset
    have hstart : Session (Vfs.new 0) bob := .start 0 "bob".toList "debian".toList
    exact session_coherent (.input bareHost (.line "sudo true".toList) hstart hx
      (List.nil_append _).symm (List.all_eq_true.mp hset))

/-- `su` under `sudo` makes root of the user, who keeps the ids. -/
theorem sudo_su_incoherent :
    ((Input.line "sudo su".toList).process bareHost.withSu bob).1.isOk ∧
      ((Input.line "sudo su".toList).process bareHost.withSu bob).2.username = "root".toList ∧
      ((Input.line "sudo su".toList).process bareHost.withSu bob).2.uid = 1000 := by
  decide +kernel

end Interp

end Mimic
