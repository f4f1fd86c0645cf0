import Mimic.Foundation.GuardedRun

/-!
# The connection limiter

`try_acquire` reserves a place in `total` with one atomic update and then, under the mutex, a place
for the address, or takes the reservation back. A guard that is dropped gives back the place of its
address under the mutex and then, after it, the one in `total`. Any number of these calls may be
between their steps at the same time (`System`).

Between its two steps a call has a place in `total` and none in the map, on the way in and on the
way out, so that `total` counts the live guards and all calls in between (`limiter_safe`).
-/

namespace Mimic

namespace Limiter

open GuardedRun

/-- The two caps of a registry. -/
structure Caps where
  maxSessions : ℕ
  perIp : ℕ

/-- A registry, and the calls that are between their steps. A refused call still holds the mutex
when it takes its reservation back; here it does not, so that more orders are covered. -/
structure System (Ip : Type) where
  total : ℕ
  perIp : Ip → Option ℕ
  /-- Reserved in `total`, in front of the mutex. -/
  acquiring : Multiset Ip
  /-- Refused under the mutex, and still in `total`. -/
  refusing : Multiset Ip
  /-- The guards that are held. -/
  live : Multiset Ip
  /-- Out of the map, and still in `total`. -/
  releasing : Multiset Ip

namespace System

variable {Ip : Type}

def new : System Ip := ⟨0, fun _ ↦ none, 0, 0, 0, 0⟩

/-- The calls between their steps. -/
def inFlight (s : System Ip) : ℕ :=
  s.acquiring.card + s.refusing.card + s.releasing.card

/-- The number of guards that the map has for an address. -/
def count (s : System Ip) (ip : Ip) : ℕ := (s.perIp ip).getD 0

end System

/-- One step of a call, with its address. -/
inductive Step (Ip : Type)
  /-- `try_acquire` updates `total`. -/
  | reserve (ip : Ip)
  /-- `try_acquire` has the mutex. -/
  | enter (ip : Ip)
  /-- A refused `try_acquire` updates `total`. -/
  | rollback (ip : Ip)
  /-- A guard is dropped, and `release` has the mutex. -/
  | release (ip : Ip)
  /-- `release` updates `total`. -/
  | settle (ip : Ip)

/-- `fetch_sub(1)` and `-= 1` on a `usize`, which wrap around at zero. -/
def wrappingPred (n : ℕ) : ℕ := if n = 0 then 2 ^ 64 - 1 else n - 1

section Steps

variable {Ip : Type} [DecidableEq Ip]

/-- The entry of an address when a guard of it is dropped. -/
def dropOne (entry : Option ℕ) : Option ℕ :=
  match entry with
  | none => none
  | some count => if wrappingPred count = 0 then none else some (wrappingPred count)

/-- The system after a step. -/
def step (caps : Caps) : Step Ip → System Ip → System Ip
  | .reserve ip, s =>
    if s.total ≥ caps.maxSessions then s
    else { s with total := s.total + 1, acquiring := ip ::ₘ s.acquiring }
  | .enter ip, s =>
    -- the entry is made before it is checked, and stays after a refusal
    if s.count ip ≥ caps.perIp then
      { s with
        perIp := Function.update s.perIp ip (some (s.count ip)), acquiring := s.acquiring.erase ip
        refusing := ip ::ₘ s.refusing }
    else
      { s with
        perIp := Function.update s.perIp ip (some (s.count ip + 1))
        acquiring := s.acquiring.erase ip, live := ip ::ₘ s.live }
  | .rollback ip, s =>
    { s with total := wrappingPred s.total, refusing := s.refusing.erase ip }
  | .release ip, s =>
    { s with
      perIp := Function.update s.perIp ip (dropOne (s.perIp ip)), live := s.live.erase ip
      releasing := ip ::ₘ s.releasing }
  | .settle ip, s =>
    { s with total := wrappingPred s.total, releasing := s.releasing.erase ip }

/-- There is a call that is about to take the step. -/
def Enabled : Step Ip → System Ip → Prop
  | .reserve _, _ => True
  | .enter ip, s => ip ∈ s.acquiring
  | .rollback ip, s => ip ∈ s.refusing
  | .release ip, s => ip ∈ s.live
  | .settle ip, s => ip ∈ s.releasing

/-- The step takes one from a counter that is zero, or from an entry that is not there. -/
def Underflows : Step Ip → System Ip → Prop
  | .reserve _, _ => False
  | .enter _, _ => False
  | .rollback _, s => s.total = 0
  | .release ip, s => s.count ip = 0
  | .settle _, s => s.total = 0

instance decidableEnabled : ∀ (a : Step Ip) (s : System Ip), Decidable (Enabled a s)
  | .reserve _, _ => isTrue trivial
  | .enter ip, s => inferInstanceAs (Decidable (ip ∈ s.acquiring))
  | .rollback ip, s => inferInstanceAs (Decidable (ip ∈ s.refusing))
  | .release ip, s => inferInstanceAs (Decidable (ip ∈ s.live))
  | .settle ip, s => inferInstanceAs (Decidable (ip ∈ s.releasing))

/-! ### Safety -/

/-- What holds of the counters. -/
structure Safe (caps : Caps) (s : System Ip) : Prop where
  total : s.total = s.live.card + s.inFlight
  capped : s.total ≤ caps.maxSessions
  counts : ∀ ip, s.count ip = s.live.count ip
  cappedPerIp : ∀ ip, s.count ip ≤ caps.perIp
  noZero : ∀ ip, s.perIp ip ≠ some 0

variable {caps : Caps} {s : System Ip} {a : Step Ip} {ip : Ip}

theorem safe_new : Safe caps (System.new : System Ip) where
  total := rfl
  capped := Nat.zero_le _
  counts ip := (Multiset.count_zero ip).symm
  cappedPerIp _ := Nat.zero_le _
  noZero _ := nofun

theorem count_update (s : System Ip) (ip other : Ip) (entry : Option ℕ) :
    (Function.update s.perIp ip entry other).getD 0 =
      if other = ip then entry.getD 0 else s.count other := by
  rw [Function.update_apply]
  split <;> rfl

theorem getD_dropOne {entry : Option ℕ} (h : entry.getD 0 ≠ 0) :
    (dropOne entry).getD 0 + 1 = entry.getD 0 ∧ dropOne entry ≠ some 0 := by
  cases entry with
  | none => exact absurd rfl h
  | some count =>
    have hcount : count ≠ 0 := h
    simp only [dropOne, wrappingPred, if_neg hcount]
    split
    · refine ⟨?_, nofun⟩
      show 0 + 1 = count
      omega
    · rename_i hpred
      refine ⟨?_, fun hzero ↦ hpred (Option.some.inj hzero)⟩
      show count - 1 + 1 = count
      omega

/-- What is in front of a call is counted. -/
theorem Safe.pos (h : Safe caps s) (ha : Enabled a s) : ¬ Underflows a s := by
  have htotal := h.total
  rw [System.inFlight] at htotal
  cases a with
  | reserve => exact not_false
  | enter => exact not_false
  | rollback ip =>
    have hpos := Multiset.card_pos_iff_exists_mem.mpr ⟨ip, ha⟩
    show s.total ≠ 0
    omega
  | release ip =>
    show s.count ip ≠ 0
    rw [h.counts]
    exact (Multiset.count_pos.mpr ha).ne'
  | settle ip =>
    have hpos := Multiset.card_pos_iff_exists_mem.mpr ⟨ip, ha⟩
    show s.total ≠ 0
    omega

/-- **One step.** -/
theorem Safe.step (hcap : 0 < caps.perIp) (h : Safe caps s) (ha : Enabled a s) :
    Safe caps (step caps a s) := by
  have hpos := h.pos ha
  obtain ⟨htotal, hcapped, hcounts, hcappedPerIp, hnoZero⟩ := h
  rw [System.inFlight] at htotal
  cases a with
  | reserve ip =>
    rw [Limiter.step]
    split
    · exact ⟨htotal, hcapped, hcounts, hcappedPerIp, hnoZero⟩
    · refine ⟨?_, ?_, hcounts, hcappedPerIp, hnoZero⟩
      · simp only [System.inFlight, Multiset.card_cons]
        omega
      · dsimp only
        omega
  | enter ip =>
    have hacquiring := Multiset.card_erase_add_one (show ip ∈ s.acquiring from ha)
    rw [Limiter.step]
    split
    · refine ⟨?_, hcapped, fun other ↦ ?_, fun other ↦ ?_, fun other ↦ ?_⟩
      · simp only [System.inFlight, Multiset.card_cons]
        omega
      · refine (count_update s ip other _).trans ?_
        split
        · rename_i hsame
          exact hsame ▸ hcounts ip
        · exact hcounts other
      · refine (count_update s ip other _).trans_le ?_
        split
        · exact hcappedPerIp ip
        · exact hcappedPerIp other
      · dsimp only
        rw [Function.update_apply]
        split
        · refine fun hzero ↦ ?_
          have hzero' := Option.some.inj hzero
          omega
        · exact hnoZero other
    · refine ⟨?_, hcapped, fun other ↦ ?_, fun other ↦ ?_, fun other ↦ ?_⟩
      · simp only [System.inFlight, Multiset.card_cons]
        omega
      · refine (count_update s ip other _).trans ?_
        split
        · rename_i hsame
          subst hsame
          rw [Multiset.count_cons_self, ← hcounts]
          rfl
        · rename_i hother
          rw [Multiset.count_cons_of_ne hother]
          exact hcounts other
      · refine (count_update s ip other _).trans_le ?_
        split
        · show s.count ip + 1 ≤ caps.perIp
          omega
        · exact hcappedPerIp other
      · dsimp only
        rw [Function.update_apply]
        split
        · exact fun hzero ↦ absurd (Option.some.inj hzero) (Nat.succ_ne_zero _)
        · exact hnoZero other
  | rollback ip =>
    have htotal' : s.total ≠ 0 := hpos
    have hrefusing := Multiset.card_erase_add_one (show ip ∈ s.refusing from ha)
    refine ⟨?_, ?_, hcounts, hcappedPerIp, hnoZero⟩
    · simp only [Limiter.step, System.inFlight, wrappingPred, if_neg htotal']
      omega
    · simp only [Limiter.step, wrappingPred, if_neg htotal']
      omega
  | release ip =>
    have hcount : s.count ip ≠ 0 := hpos
    have hlive := Multiset.card_erase_add_one (show ip ∈ s.live from ha)
    obtain ⟨hdrop, hdropped⟩ := getD_dropOne hcount
    rw [Limiter.step]
    refine ⟨?_, hcapped, fun other ↦ ?_, fun other ↦ ?_, fun other ↦ ?_⟩
    · simp only [System.inFlight, Multiset.card_cons]
      omega
    · refine (count_update s ip other _).trans ?_
      split
      · rename_i hsame
        subst hsame
        have hcounted : (s.perIp other).getD 0 = s.live.count other := hcounts other
        rw [Multiset.count_erase_self, ← hcounted]
        exact Nat.eq_sub_of_add_eq hdrop
      · rename_i hother
        rw [Multiset.count_erase_of_ne hother]
        exact hcounts other
    · refine (count_update s ip other _).trans_le ?_
      split
      · exact (Nat.le_of_succ_le hdrop.le).trans (hcappedPerIp ip)
      · exact hcappedPerIp other
    · refine fun hzero ↦ ?_
      replace hzero : Function.update s.perIp ip (dropOne (s.perIp ip)) other = some 0 := hzero
      rw [Function.update_apply] at hzero
      split at hzero
      · exact hdropped hzero
      · exact hnoZero other hzero
  | settle ip =>
    have htotal' : s.total ≠ 0 := hpos
    have hreleasing := Multiset.card_erase_add_one (show ip ∈ s.releasing from ha)
    refine ⟨?_, ?_, hcounts, hcappedPerIp, hnoZero⟩
    · simp only [Limiter.step, System.inFlight, wrappingPred, if_neg htotal']
      omega
    · simp only [Limiter.step, wrappingPred, if_neg htotal']
      omega

/-- **The limiter is safe** under every interleaving. -/
theorem limiter_safe (hcap : 0 < caps.perIp) {steps : List (Step Ip)}
    (h : Admissible (Limiter.step caps) Enabled System.new steps) :
    Safe caps (run (Limiter.step caps) System.new steps) ∧
      ∀ a, Enabled a (run (Limiter.step caps) System.new steps) →
        ¬ Underflows a (run (Limiter.step caps) System.new steps) := by
  have hsafe := invariant_run (I := Safe caps) h (fun _ _ ha hs ↦ hs.step hcap ha) safe_new
  exact ⟨hsafe, fun a ha ↦ hsafe.pos ha⟩

/-- A call that is refused, and a guard that is dropped before the refusal is through. -/
theorem limiter_safe_refusal :
    Safe ⟨2, 1⟩ (run (Limiter.step ⟨2, 1⟩) (System.new : System ℕ) [.reserve 7, .reserve 7,
        .enter 7, .enter 7, .release 7, .rollback 7]) ∧
      ∀ a, Enabled a (run (Limiter.step ⟨2, 1⟩) (System.new : System ℕ) [.reserve 7, .reserve 7,
          .enter 7, .enter 7, .release 7, .rollback 7]) →
        ¬ Underflows a (run (Limiter.step ⟨2, 1⟩) (System.new : System ℕ) [.reserve 7, .reserve 7,
          .enter 7, .enter 7, .release 7, .rollback 7]) :=
  limiter_safe (by decide) (by decide)

end Steps

end Limiter

end Mimic
