import Mimic.Shell.LineBounds

/-!
# Escape sequences at the line editor

An escape sequence is read as a key: none of its bytes is typed, unless a search was going on. There
the escape byte ends the search and nothing else, and the rest of the sequence is text.

## Main results

* `escape_unread_iff`: none of the bytes of an escape sequence is typed, and none is awaited after
  it, exactly if no search was going on.
-/

namespace Mimic.LineEditor

open GuardedRun

variable {e : LineEditor} {byte : UInt8}

/-- A byte that reaches `insert`, or the push onto the query of a search. -/
def Typed : Action → LineEditor → Prop
  | .key byte, e =>
    match e.esc, e.search with
    | .none, none => isPrintable byte
    | .none, some _ => isPrintable byte
    | _, _ => False
  | _, _ => False

instance (a : Action) (e : LineEditor) : Decidable (Typed a e) := by
  unfold Typed
  split
  · split <;> infer_instance
  · infer_instance

/-- A parameter byte of an escape sequence. -/
def IsParam (byte : UInt8) : Prop := (0x30 ≤ byte ∧ byte ≤ 0x39) ∨ byte = 0x3b

/-- A byte that ends an escape sequence: a letter or `~`. -/
def IsFinal (byte : UInt8) : Prop :=
  (0x41 ≤ byte ∧ byte ≤ 0x5a) ∨ (0x61 ≤ byte ∧ byte ≤ 0x7a) ∨ byte = 0x7e

/-- An escape sequence, as it is typed. -/
def escape (params : Bytes) (final : UInt8) : List Action :=
  ([0x1b, 0x5b] ++ params ++ [final]).map .key

/-! ### What is typed -/

/-- The bytes that are keys of their own. -/
def keys : Bytes :=
  [0x0d, 0x0a, 0x1b, 0x09, 0x08, 0x7f, 0x01, 0x05, 0x02, 0x06, 0x10, 0x0e, 0x15, 0x0b, 0x17, 0x19,
    0x0c, 0x12, 0x03, 0x04, 0x07]

theorem ne_key (h : isPrintable byte) : ∀ key ∈ keys, byte ≠ key := by
  rintro key hkey rfl
  exact (show ∀ key ∈ keys, ¬isPrintable key by decide +kernel) byte hkey h

/-- A byte typed outside a search goes into the line. -/
theorem input_of_typed (h : Typed (.key byte) e) (hs : e.search = none) :
    e.input byte = e.insert byte := by
  rw [Typed, hs] at h
  rw [input, hs]
  cases he : e.esc with
  | got | csi => simp [he] at h
  | none =>
    rw [he] at h
    have hne := ne_key h
    simp only [keys, List.forall_mem_cons] at hne
    simp [inputKey, hne, h]

/-- A byte typed in a search goes into the query. -/
theorem input_of_typed_search (h : Typed (.key byte) e) {s : Search} (hs : e.search = some s) :
    e.input byte =
      (e.searchFor
        (if s.query.length < e.maxLine then s.query ++ [byte] else s.query)).searching := by
  rw [Typed, hs] at h
  rw [input, hs]
  cases he : e.esc with
  | got | csi => simp [he] at h
  | none =>
    rw [he] at h
    have hne := ne_key h
    simp only [keys, List.forall_mem_cons] at hne
    simp [inputSearch, hne, h]

/-! ### An escape sequence -/

theorem historyPrev_esc (e : LineEditor) : e.historyPrev.2.esc = e.esc := by
  rw [historyPrev]
  split
  · rfl
  · split <;> rfl

theorem historyNext_esc (e : LineEditor) : e.historyNext.2.esc = e.esc := by
  rw [historyNext]
  split
  · rfl
  · split <;> rfl

theorem deleteForward_esc (e : LineEditor) : e.deleteForward.2.esc = e.esc := by
  rw [deleteForward]
  split <;> rfl

theorem moveLeft_esc (e : LineEditor) : e.moveLeft.2.esc = e.esc := by
  rw [moveLeft]
  split <;> rfl

theorem moveRight_esc (e : LineEditor) : e.moveRight.2.esc = e.esc := by
  rw [moveRight]
  split <;> rfl

/-- Any byte but a parameter ends the sequence. -/
theorem inputCsi_esc (h : ¬IsParam byte) : (e.inputCsi byte).2.esc = .none := by
  rw [IsParam] at h
  rw [inputCsi, if_neg h]
  dsimp only
  split
  · exact historyPrev_esc _
  split
  · exact historyNext_esc _
  split
  · exact moveRight_esc _
  split
  · exact moveLeft_esc _
  split_ifs
  all_goals first | rfl | exact deleteForward_esc _

/-- A sequence that has been opened reads its parameters and its last byte. -/
theorem read_params (he : e.esc = .csi) (params : Bytes) (hp : ∀ b ∈ params, IsParam b)
    {final : UInt8} (hf : ¬IsParam final) :
    Admissible act (fun a e ↦ ¬Typed a e) e ((params ++ [final]).map .key) ∧
      (run act e ((params ++ [final]).map .key)).esc = .none := by
  have hquiet : ∀ b, ¬Typed (.key b) e := fun b ↦ by simp [Typed, he]
  have hinput : ∀ b, act (.key b) e = (e.inputCsi b).2 := fun b ↦ by rw [act, input, he]
  induction params generalizing e with
  | nil =>
    refine ⟨⟨hquiet final, trivial⟩, ?_⟩
    show (act (.key final) e).esc = .none
    rw [hinput, inputCsi_esc hf]
  | cons b params ih =>
    have hb : IsParam b := hp b List.mem_cons_self
    have hnext : (act (.key b) e).esc = .csi := by
      rw [IsParam] at hb
      rw [hinput, inputCsi, if_pos hb]
      dsimp only
      split <;> exact he
    obtain ⟨hadm, hrun⟩ := ih hnext (fun b hb ↦ hp b (List.mem_cons_of_mem _ hb))
      (fun b ↦ by simp [Typed, hnext]) (fun b ↦ by rw [act, input, hnext])
    exact ⟨⟨hquiet b, hadm⟩, hrun⟩

theorem IsFinal.not_isParam {final : UInt8} (h : IsFinal final) : ¬IsParam final := by
  simp only [IsFinal, IsParam, UInt8.le_iff_toNat_le, ← UInt8.toNat_inj] at h ⊢
  simp at h ⊢
  omega

/-- **Escape sequences at the line editor.** With no escape sequence begun, none of the bytes of
one is typed and none is awaited after it, exactly if no search was going on. -/
theorem escape_unread_iff (maxLine maxHistory : ℕ) (actions : List Action) (params : Bytes)
    (final : UInt8) (hp : ∀ b ∈ params, IsParam b) (hf : IsFinal final) :
    let e := run act (LineEditor.new maxLine maxHistory) actions
    e.esc = .none →
      (Admissible act (fun a e ↦ ¬Typed a e) e (escape params final) ∧
          (run act e (escape params final)).esc = .none ↔
        e.search = none) := by
  intro e he
  constructor
  · rintro ⟨⟨-, hopen, -⟩, -⟩
    cases hs : e.search with
    | none => rfl
    | some s =>
      -- the escape byte ends the search, and the bracket is typed
      refine absurd ?_ hopen
      have hinput : e.input 0x1b = e.inputSearch s 0x1b := by rw [input, he, hs]
      have hact : act (.key 0x1b) e = { e with search := none } := by
        rw [act, hinput]
        rfl
      rw [hact]
      simp [Typed, he, isPrintable]
  · intro hs
    have hinput : e.input 0x1b = e.inputKey 0x1b := by rw [input, he, hs]
    have hgot : act (.key 0x1b) e = { e with esc := .got } := by
      rw [act, hinput]
      rfl
    have hcsi : act (.key 0x5b) { e with esc := .got } =
      { e with esc := .csi, csiParams := [] } := rfl
    obtain ⟨hadm, hrun⟩ := read_params (e := { e with esc := .csi, csiParams := [] }) rfl params hp
      hf.not_isParam
    refine ⟨⟨?_, ?_, ?_⟩, ?_⟩
    · simp [Typed, he, hs, isPrintable]
    · rw [hgot]
      simp [Typed]
    · rw [hgot, hcsi]
      exact hadm
    · show (run act (act (.key 0x5b) (act (.key 0x1b) e)) _).esc = _
      rw [hgot, hcsi]
      exact hrun

/-- The key Up, at a new editor and typed in a search. -/
theorem escape_unread_iff_up :
    (∀ b ∈ ([] : Bytes), IsParam b) ∧ IsFinal 0x41 ∧
      (Admissible act (fun a e ↦ ¬Typed a e) (LineEditor.new 80 10) (escape [] 0x41) ∧
          (run act (LineEditor.new 80 10) (escape [] 0x41)).esc = .none ↔
        (LineEditor.new 80 10).search = none) :=
  ⟨by simp, .inl (by decide), escape_unread_iff 80 10 [] [] 0x41 (by simp) (.inl (by decide)) rfl⟩

/-- Up, typed in a search, leaves `[A` in the line. -/
theorem up_in_search :
    (run act (LineEditor.new 80 10) [.key 0x12]).esc = .none ∧
      ¬Admissible act (fun a e ↦ ¬Typed a e) (run act (LineEditor.new 80 10) [.key 0x12])
        (escape [] 0x41) ∧
      (run act (run act (LineEditor.new 80 10) [.key 0x12]) (escape [] 0x41)).buf =
        [0x5b, 0x41] := by
  refine ⟨by decide +kernel, by decide +kernel, by decide +kernel⟩

end Mimic.LineEditor
