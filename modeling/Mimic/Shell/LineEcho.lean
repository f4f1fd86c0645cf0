import Mimic.Foundation.Terminal
import Mimic.Shell.LineBounds

/-!
# What the line editor echoes

Some keys redraw the line, others write one byte or move the cursor one column. On a terminal that
shows the prompt and the line, the two come to the same.

## Main results

* `echo_eq_redraw`: behind any keys that do not search or submit, the terminal shows what a redraw
  would.
-/

namespace Mimic

/-- The bytes that a reaction sends to the terminal. -/
def Reaction.emitted : Reaction → Bytes
  | .write bytes => bytes
  | .submit echo _ => echo
  | .ignore | .eof | .complete => []

namespace LineEditor

open GuardedRun

variable {e e' : LineEditor} {limits : ℕ × ℕ} {text text' : Bytes}

/-! ### Printable text -/

/-- Text that a terminal shows byte by byte. -/
def Printable (text : Bytes) : Prop := ∀ b ∈ text, Terminal.IsPrintable b

/-- An editor whose texts are all printable. -/
structure Plain (e : LineEditor) : Prop where
  prompt : Printable e.prompt
  buf : Printable e.buf
  kill : Printable e.kill
  stash : Printable e.stash
  history : ∀ line ∈ e.history, Printable (Text.toUtf8 line)

theorem Printable.nil : Printable [] := by simp [Printable]

theorem Printable.append (h : Printable text) (h' : Printable text') : Printable (text ++ text') :=
  fun b hb ↦ (List.mem_append.mp hb).elim (h b) (h' b)

theorem Printable.take (h : Printable text) (n : ℕ) : Printable (text.take n) :=
  fun b hb ↦ h b (List.mem_of_mem_take hb)

theorem Printable.drop (h : Printable text) (n : ℕ) : Printable (text.drop n) :=
  fun b hb ↦ h b (List.mem_of_mem_drop hb)

theorem not_isContinuation {b : UInt8} (h : Terminal.IsPrintable b) : ¬Text.isContinuation b := by
  have hle : b.toNat ≤ 126 := UInt8.le_iff_toNat_le.mp h.2
  simp only [Text.isContinuation, beq_iff_eq]
  omega

/-- Every byte of printable text is a character. -/
theorem charStart_printable (h : Printable text) {i : ℕ} (hi : i < text.length) :
    charStart text i = i := by
  cases i with
  | zero => rfl
  | succ i =>
    rw [charStart, List.getD_eq_getElem?_getD, List.getElem?_eq_getElem hi]
    exact if_neg (not_isContinuation (h _ (List.getElem_mem hi)))

theorem nextChar_printable (h : Printable e.buf) (i : ℕ) : e.nextChar i = i + 1 := by
  rw [nextChar]
  cases hd : e.buf.drop (i + 1) with
  | nil => rfl
  | cons b rest =>
    have hb : b ∈ e.buf.drop (i + 1) := by simp [hd]
    rw [List.takeWhile_cons_of_neg (not_isContinuation (h b (List.mem_of_mem_drop hb)))]
    rfl

theorem prevChar_printable (h : Printable e.buf) (hc : e.cursor ≤ e.buf.length)
    (h0 : e.cursor ≠ 0) : e.prevChar e.cursor = e.cursor - 1 :=
  charStart_printable h (by omega)

/-! ### A redraw -/

/-- The terminal that shows the prompt and the line. -/
def shown (e : LineEditor) : Terminal.Screen where
  line := e.prompt ++ e.buf
  col := e.prompt.length + e.cursor
  mode := .ground

/-- A digit is one byte, below the bytes that end a control sequence. -/
theorem utf8EncodeChar_digit {c : Char} (h : c.isDigit) :
    ∃ b : UInt8, String.utf8EncodeChar c = [b] ∧ b.toNat = c.toNat ∧ b < 0x40 := by
  have hd : 48 ≤ c.toNat ∧ c.toNat ≤ 57 := by
    simp only [Char.isDigit, Bool.and_eq_true, decide_eq_true_eq] at h
    exact ⟨UInt32.le_iff_toNat_le.mp h.1, UInt32.le_iff_toNat_le.mp h.2⟩
  have hsize : c.utf8Size = 1 := by
    rw [Char.utf8Size_eq_one_iff, UInt32.le_iff_toNat_le]
    exact hd.2.trans (by decide)
  have hbyte : c.val.toUInt8.toNat = c.toNat := by
    rw [UInt32.toNat_toUInt8]
    exact Nat.mod_eq_of_lt (by have : c.val.toNat = c.toNat := rfl; omega)
  refine ⟨c.val.toUInt8, String.utf8EncodeChar_eq_singleton hsize, hbyte, ?_⟩
  rw [UInt8.lt_iff_toNat_lt, hbyte]
  show c.toNat < 64
  omega

theorem toUtf8_digits {digits : Str} (h : ∀ c ∈ digits, c.isDigit) :
    (∀ b ∈ Text.toUtf8 digits, b < 0x40) ∧
      ∀ n, (Text.toUtf8 digits).foldl (fun n b ↦ 10 * n + (b.toNat - 0x30)) n =
        Nat.ofDigitChars 10 digits n := by
  induction digits with
  | nil => exact ⟨by simp [Text.toUtf8], fun n ↦ by simp [Text.toUtf8]⟩
  | cons c digits ih =>
    obtain ⟨hlt, hfold⟩ := ih fun c hc ↦ h c (List.mem_cons_of_mem _ hc)
    obtain ⟨b, hb, hnat, hb40⟩ := utf8EncodeChar_digit (h c List.mem_cons_self)
    have hcons : Text.toUtf8 (c :: digits) = b :: Text.toUtf8 digits := by
      rw [Text.toUtf8, List.flatMap_cons, hb]
      rfl
    rw [hcons]
    refine ⟨List.forall_mem_cons.mpr ⟨hb40, hlt⟩, fun n ↦ ?_⟩
    rw [List.foldl_cons, hfold, Nat.ofDigitChars_cons, hnat]
    rfl

theorem count_decimal (n : ℕ) : Terminal.count (Text.toUtf8 (Text.decimal n)) = n := by
  have hne : Text.toUtf8 (Text.decimal n) ≠ [] := by
    intro hnil
    have hlen := congrArg List.length hnil
    rw [Text.length_toUtf8, List.length_nil] at hlen
    obtain ⟨c, digits, hd⟩ := List.exists_cons_of_ne_nil (Nat.toDigits_ne_nil (n := n) (b := 10))
    rw [Text.decimal, hd, Text.byteLen_cons] at hlen
    have := c.utf8Size_pos
    omega
  rw [Terminal.count, if_neg hne, Terminal.value,
    (toUtf8_digits fun c hc ↦ Text.isDigit_of_mem_decimal hc).2, Text.decimal,
    Nat.ofDigitChars_ten_toDigits]

/-- **A redraw** shows the line, whatever was on the screen. -/
theorem feed_redraw (h : Plain e) (hc : e.cursor ≤ e.buf.length) {t : Terminal.Screen}
    (ht : t.mode = .ground) : Terminal.feed t e.redraw = e.shown := by
  have hback : ((e.buf.drop e.cursor).filter fun b ↦ !Text.isContinuation b).length =
      e.buf.length - e.cursor := by
    rw [List.filter_eq_self.mpr, List.length_drop]
    exact fun b hb ↦ by simpa using not_isContinuation (h.buf.drop _ b hb)
  have hreturn : Terminal.feed t [0x0d] = ⟨t.line, 0, .ground⟩ := by
    simp [Terminal.byte, ht]
  -- the prompt and the line are written over the screen, and the rest of it is erased
  have hdrawn : Terminal.feed t ([0x0d] ++ e.prompt ++ e.buf ++ Text.toUtf8 "\x1b[K".toList) =
      ⟨e.prompt ++ e.buf, e.prompt.length + e.buf.length, .ground⟩ := by
    have herase : Text.toUtf8 "\x1b[K".toList = [0x1b, 0x5b] ++ [] ++ [0x4b] := by decide +kernel
    rw [List.append_assoc [0x0d], Terminal.feed_append, Terminal.feed_append, hreturn,
      Terminal.feed_printable (h.prompt.append h.buf) (Nat.zero_le _), herase,
      Terminal.feed_csi rfl (by simp) (by decide)]
    simp only [Terminal.control]
    simp
    rw [← List.append_assoc, List.take_left' (List.length_append)]
  rw [redraw, hback, Terminal.feed_append, hdrawn]
  split
  · rename_i hpos
    have hopen : Text.toUtf8 "\x1b[".toList = [0x1b, 0x5b] := by decide +kernel
    have hclose : Text.toUtf8 ['D'] = [0x44] := by decide +kernel
    rw [Text.toUtf8_append, Text.toUtf8_append, hopen, hclose,
      Terminal.feed_csi rfl (toUtf8_digits fun c hc ↦ Text.isDigit_of_mem_decimal hc).1 (by decide)]
    simp only [Terminal.control, count_decimal, shown]
    simp
    omega
  · rw [Terminal.feed_nil, shown]
    congr 1
    omega

/-! ### What each key echoes -/

/-- A step that neither begins a search nor submits. -/
structure Stays (step : Reaction × LineEditor) : Prop where
  search : step.2.search = none
  submits : ∀ echo line, step.1 ≠ .submit echo line

/-- A step whose echo, on a terminal that shows `e`, shows the editor behind the step. -/
structure Echoes (e : LineEditor) (step : Reaction × LineEditor) : Prop where
  shows : Terminal.feed e.shown step.1.emitted = step.2.shown
  plain : Plain step.2

theorem Plain.edit (h : Plain e) (hb : Printable e'.buf) (hk : Printable e'.kill)
    (hst : Printable e'.stash) (hp : e'.prompt = e.prompt) (hh : e'.history = e.history) :
    Plain e' :=
  ⟨hp ▸ h.prompt, hb, hk, hst, hh ▸ h.history⟩

theorem Plain.moveTo (h : Plain e) (cursor : ℕ) : Plain { e with cursor := cursor } :=
  h.edit h.buf h.kill h.stash rfl rfl

theorem Plain.withEsc (h : Plain e) (esc : Esc) (params : Bytes) :
    Plain { e with esc := esc, csiParams := params } :=
  h.edit h.buf h.kill h.stash rfl rfl

theorem Echoes.ignore (h : Plain e) : Echoes e (.ignore, e) := ⟨rfl, h⟩

theorem Echoes.redrawn (h : Plain e') (hc : e'.cursor ≤ e'.buf.length) :
    Echoes e e'.redrawn :=
  ⟨feed_redraw h hc rfl, h⟩

theorem Echoes.ite {c : Prop} [Decidable c] {step step' : Reaction × LineEditor}
    (hs : Stays (if c then step else step')) (ht : c → Stays step → Echoes e step)
    (he : ¬c → Stays step' → Echoes e step') : Echoes e (if c then step else step') := by
  split at hs
  · rw [if_pos ‹_›]
    exact ht ‹_› hs
  · rw [if_neg ‹_›]
    exact he ‹_› hs

/-- A byte at the end of the line takes the next column. -/
theorem insert_echoes (h : Plain e) (hc : e.cursor ≤ e.buf.length) {byte : UInt8}
    (hbyte : Terminal.IsPrintable byte) : Echoes e (e.insert byte) := by
  rw [insert]
  split
  · exact .ignore h
  have hbuf : Printable (e.buf.take e.cursor ++ byte :: e.buf.drop e.cursor) :=
    (h.buf.take _).append (List.forall_mem_cons.mpr ⟨hbyte, h.buf.drop _⟩)
  have hlen : (e.buf.take e.cursor ++ byte :: e.buf.drop e.cursor).length = e.buf.length + 1 := by
    simp only [List.length_append, List.length_take, List.length_cons, List.length_drop]
    omega
  have hp : Plain { e with
      buf := e.buf.take e.cursor ++ byte :: e.buf.drop e.cursor
      cursor := e.cursor + 1
      histPos := none } := h.edit hbuf h.kill h.stash rfl rfl
  dsimp only
  split
  · rename_i hend
    have hcur : e.cursor = e.buf.length := by
      rw [hlen] at hend
      omega
    refine ⟨?_, hp⟩
    show Terminal.feed e.shown [byte] = _
    rw [Terminal.feed_cons, Terminal.byte_printable hbyte rfl]
    have hall : (e.prompt ++ e.buf).take (e.prompt.length + e.buf.length) = e.prompt ++ e.buf :=
      List.take_of_length_le List.length_append.le
    simp [Terminal.put, shown, hcur, Nat.add_assoc, hall]
  · refine .redrawn hp ?_
    dsimp only
    omega

theorem backspace_echoes (h : Plain e) (hc : e.cursor ≤ e.buf.length) :
    Echoes e e.backspace := by
  rw [backspace]
  split
  · exact .ignore h
  · refine .redrawn (h.edit ((h.buf.take _).append (h.buf.drop _)) h.kill h.stash rfl rfl) ?_
    have := prevChar_le e e.cursor
    simp only [List.length_append, List.length_take, List.length_drop]
    omega

theorem deleteForward_echoes (h : Plain e) : Echoes e e.deleteForward := by
  rw [deleteForward]
  split
  · exact .ignore h
  · refine .redrawn (h.edit ((h.buf.take _).append (h.buf.drop _)) h.kill h.stash rfl rfl) ?_
    simp only [List.length_append, List.length_take, List.length_drop]
    omega

/-- A step left is one column. -/
theorem moveLeft_echoes (h : Plain e) (hc : e.cursor ≤ e.buf.length) : Echoes e e.moveLeft := by
  rw [moveLeft]
  split
  · exact .ignore h
  · rename_i h0
    refine ⟨?_, h.moveTo _⟩
    have hleft : Text.toUtf8 "\x1b[D".toList = [0x1b, 0x5b] ++ [] ++ [0x44] := by decide +kernel
    show Terminal.feed e.shown (Text.toUtf8 "\x1b[D".toList) = _
    rw [hleft, Terminal.feed_csi rfl (by simp) (by decide), prevChar_printable h.buf hc h0]
    simp [Terminal.control, Terminal.count, shown]
    omega

/-- A step right is one column. -/
theorem moveRight_echoes (h : Plain e) : Echoes e e.moveRight := by
  rw [moveRight]
  split
  · exact .ignore h
  · refine ⟨?_, h.moveTo _⟩
    have hright : Text.toUtf8 "\x1b[C".toList = [0x1b, 0x5b] ++ [] ++ [0x43] := by decide +kernel
    show Terminal.feed e.shown (Text.toUtf8 "\x1b[C".toList) = _
    rw [hright, Terminal.feed_csi rfl (by simp) (by decide), nextChar_printable h.buf]
    simp [Terminal.control, Terminal.count, shown, Nat.add_assoc]

theorem moveHome_echoes (h : Plain e) : Echoes e e.moveHome :=
  .redrawn (h.moveTo 0) (Nat.zero_le _)

theorem moveEnd_echoes (h : Plain e) : Echoes e e.moveEnd := .redrawn (h.moveTo _) le_rfl

theorem killToStart_echoes (h : Plain e) : Echoes e e.killToStart := by
  rw [killToStart]
  split
  · exact .ignore h
  · exact .redrawn (h.edit (h.buf.drop _) (h.buf.take _) h.stash rfl rfl) (Nat.zero_le _)

theorem killToEnd_echoes (h : Plain e) (hc : e.cursor ≤ e.buf.length) :
    Echoes e e.killToEnd := by
  rw [killToEnd]
  split
  · exact .ignore h
  · exact .redrawn (h.edit (h.buf.take _) (h.buf.drop _) h.stash rfl rfl)
      (List.length_take_of_le hc).ge

theorem killWord_echoes (h : Plain e) (hb : Bounded limits e) : Echoes e e.killWord := by
  have hcur := (killWord_safe hb).2.cursor
  rw [killWord] at hcur ⊢
  split at hcur
  · rw [if_pos ‹_›]
    exact .ignore h
  · rw [if_neg ‹_›]
    exact .redrawn (h.edit ((h.buf.take _).append (h.buf.drop _)) ((h.buf.take _).drop _) h.stash
      rfl rfl) hcur

theorem yank_echoes (h : Plain e) (hc : e.cursor ≤ e.buf.length) : Echoes e e.yank := by
  rw [yank]
  split
  · exact .ignore h
  · refine .redrawn (h.edit (((h.buf.take _).append h.kill).append (h.buf.drop _)) h.kill h.stash
      rfl rfl) ?_
    simp only [List.length_append, List.length_take, List.length_drop]
    omega

/-- A cleared screen is redrawn. -/
theorem clearScreen_echoes (h : Plain e) (hc : e.cursor ≤ e.buf.length) :
    Echoes e e.clearScreen := by
  have hclear : Text.toUtf8 "\x1b[H\x1b[2J".toList =
      ([0x1b, 0x5b] ++ [] ++ [0x48]) ++ ([0x1b, 0x5b] ++ [0x32] ++ [0x4a]) := by decide +kernel
  refine ⟨?_, h⟩
  show Terminal.feed e.shown (Text.toUtf8 "\x1b[H\x1b[2J".toList ++ e.redraw) = _
  rw [Terminal.feed_append, hclear, Terminal.feed_append,
    Terminal.feed_csi rfl (by simp) (by decide)]
  rw [Terminal.feed_csi rfl (by decide +kernel) (by decide)]
  exact feed_redraw h hc rfl

theorem interrupt_echoes (h : Plain e) : Echoes e e.interrupt := by
  have hp : Plain { e with buf := [], cursor := 0, histPos := none, stash := [] } :=
    h.edit .nil h.kill .nil rfl rfl
  refine ⟨?_, hp⟩
  show Terminal.feed e.shown (Text.toUtf8 "^C\r\n".toList ++ redraw _) = _
  have hnewline : Text.toUtf8 "^C\r\n".toList = [0x5e, 0x43, 0x0d, 0x0a] := by decide +kernel
  rw [Terminal.feed_append, hnewline]
  refine feed_redraw hp le_rfl ?_
  simp [Terminal.byte, Terminal.put, shown, Terminal.IsPrintable]

theorem ctrlD_echoes (h : Plain e) : Echoes e e.ctrlD := by
  rw [ctrlD]
  split
  · exact ⟨rfl, h⟩
  · exact deleteForward_echoes h

theorem showEntry_echoes (h : Plain e') {i : ℕ} (hi : i < e'.history.length) :
    Echoes e (e'.showEntry i).redrawn := by
  have hline : Printable (Text.toUtf8 (e'.history.getD i [])) := by
    rw [List.getD_eq_getElem?_getD, List.getElem?_eq_getElem hi]
    exact h.history _ (List.getElem_mem hi)
  exact .redrawn (h.edit hline h.kill h.stash rfl rfl) le_rfl

theorem historyPrev_echoes (h : Plain e) (hb : Bounded limits e) : Echoes e e.historyPrev := by
  rw [historyPrev]
  split
  · exact .ignore h
  · rename_i hne
    have hpos := List.length_pos_iff.mpr hne
    cases hp : e.histPos with
    | none =>
      have hstash : Plain { e with histPos := none, stash := e.buf } :=
        h.edit h.buf h.kill h.buf rfl rfl
      exact showEntry_echoes hstash (Nat.sub_lt hpos one_pos)
    | some i =>
      have hi := hb.histPos i hp
      cases i with
      | zero => exact .ignore h
      | succ i => exact showEntry_echoes h (by omega)

theorem historyNext_echoes (h : Plain e) : Echoes e e.historyNext := by
  rw [historyNext]
  cases e.histPos with
  | none => exact .ignore h
  | some i =>
    dsimp only
    split
    · rename_i hi
      exact showEntry_echoes h hi
    · exact .redrawn (h.edit h.stash h.kill .nil rfl rfl) le_rfl

/-! ### A byte -/

theorem inputKey_echoes (h : Plain e) (hb : Bounded limits e) {byte : UInt8} (h80 : byte < 0x80)
    (hs : Stays (e.inputKey byte)) : Echoes e (e.inputKey byte) := by
  have hc := hb.cursor
  refine .ite hs (fun _ hs ↦ absurd rfl (hs.submits _ _)) fun _ hs ↦ ?_
  refine .ite hs (fun _ _ ↦ ⟨rfl, h.withEsc _ _⟩) fun _ hs ↦ ?_
  refine .ite hs (fun _ _ ↦ ⟨rfl, h⟩) fun _ hs ↦ ?_
  refine .ite hs (fun _ _ ↦ backspace_echoes h hc) fun _ hs ↦ ?_
  refine .ite hs (fun _ _ ↦ moveHome_echoes h) fun _ hs ↦ ?_
  refine .ite hs (fun _ _ ↦ moveEnd_echoes h) fun _ hs ↦ ?_
  refine .ite hs (fun _ _ ↦ moveLeft_echoes h hc) fun _ hs ↦ ?_
  refine .ite hs (fun _ _ ↦ moveRight_echoes h) fun _ hs ↦ ?_
  refine .ite hs (fun _ _ ↦ historyPrev_echoes h hb) fun _ hs ↦ ?_
  refine .ite hs (fun _ _ ↦ historyNext_echoes h) fun _ hs ↦ ?_
  refine .ite hs (fun _ _ ↦ killToStart_echoes h) fun _ hs ↦ ?_
  refine .ite hs (fun _ _ ↦ killToEnd_echoes h hc) fun _ hs ↦ ?_
  refine .ite hs (fun _ _ ↦ killWord_echoes h hb) fun _ hs ↦ ?_
  refine .ite hs (fun _ _ ↦ yank_echoes h hc) fun _ hs ↦ ?_
  refine .ite hs (fun _ _ ↦ clearScreen_echoes h hc) fun _ hs ↦ ?_
  refine .ite hs (fun _ hs ↦ absurd hs.search (Option.some_ne_none _)) fun _ hs ↦ ?_
  refine .ite hs (fun _ _ ↦ interrupt_echoes h) fun _ hs ↦ ?_
  refine .ite hs (fun _ _ ↦ ctrlD_echoes h) fun _ hs ↦ ?_
  refine .ite hs (fun hprint _ ↦ insert_echoes h hc ?_) fun _ _ ↦ .ignore h
  -- below 0x80, a printable byte is a printable character
  simp only [isPrintable, Bool.or_eq_true, Bool.and_eq_true, decide_eq_true_eq] at hprint
  exact hprint.resolve_right (UInt8.not_le.mpr h80)

theorem inputCsi_echoes (h : Plain e) (hb : Bounded limits e) {byte : UInt8}
    (hs : Stays (e.inputCsi byte)) : Echoes e (e.inputCsi byte) := by
  set e₀ : LineEditor := { e with esc := .none, csiParams := [] } with he₀
  have hp : Plain e₀ := h.withEsc _ _
  have hb₀ : Bounded limits e₀ := hb.withEsc _ _
  have hc := hb₀.cursor
  -- reading a parameter or the last byte changes nothing that is shown
  have hsame : ∀ {step}, Echoes e₀ step → Echoes e step := fun hstep ↦ ⟨hstep.shows, hstep.plain⟩
  refine .ite hs (fun _ _ ↦ ?_) fun _ hs ↦ ?_
  · split
    · exact ⟨rfl, h.withEsc _ _⟩
    · exact .ignore h
  refine .ite hs (fun _ _ ↦ hsame (historyPrev_echoes hp hb₀)) fun _ hs ↦ ?_
  refine .ite hs (fun _ _ ↦ hsame (historyNext_echoes hp)) fun _ hs ↦ ?_
  refine .ite hs (fun _ _ ↦ hsame (moveRight_echoes hp)) fun _ hs ↦ ?_
  refine .ite hs (fun _ _ ↦ hsame (moveLeft_echoes hp hc)) fun _ hs ↦ ?_
  refine .ite hs (fun _ _ ↦ hsame (moveHome_echoes hp)) fun _ hs ↦ ?_
  refine .ite hs (fun _ _ ↦ hsame (moveEnd_echoes hp)) fun _ hs ↦ ?_
  refine .ite hs (fun _ hs ↦ ?_) fun _ _ ↦ hsame (.ignore hp)
  refine .ite hs (fun _ _ ↦ hsame (moveHome_echoes hp)) fun _ hs ↦ ?_
  refine .ite hs (fun _ _ ↦ hsame (moveEnd_echoes hp)) fun _ hs ↦ ?_
  exact .ite hs (fun _ _ ↦ hsame (deleteForward_echoes hp)) fun _ _ ↦ hsame (.ignore hp)

theorem input_echoes (h : Plain e) (hb : Bounded limits e) (hn : e.search = none) {byte : UInt8}
    (h80 : byte < 0x80) (hs : Stays (e.input byte)) : Echoes e (e.input byte) := by
  cases he : e.esc with
  | got =>
    have hinput : e.input byte = e.inputAfterEsc byte := by rw [input, he]
    rw [hinput, inputAfterEsc]
    split
    · exact ⟨rfl, h.withEsc _ _⟩
    · exact ⟨rfl, h.withEsc _ _⟩
  | csi =>
    have hinput : e.input byte = e.inputCsi byte := by rw [input, he]
    rw [hinput] at hs ⊢
    exact inputCsi_echoes h hb hs
  | none =>
    have hinput : e.input byte = e.inputKey byte := by rw [input, he, hn]
    rw [hinput] at hs ⊢
    exact inputKey_echoes h hb h80 hs

/-! ### A run -/

/-- The editor after a byte. -/
def press (byte : UInt8) (e : LineEditor) : LineEditor := (e.input byte).2

/-- What is sent to the terminal while some bytes are typed. -/
def echoed : LineEditor → Bytes → Bytes
  | _, [] => []
  | e, byte :: bytes => (e.input byte).1.emitted ++ echoed (press byte e) bytes

theorem feed_echoed {bytes : Bytes} (h : Plain e) (hb : Bounded limits e) (hn : e.search = none)
    (h80 : ∀ b ∈ bytes, b < 0x80)
    (hs : Admissible press (fun b e ↦ Stays (e.input b)) e bytes) :
    Terminal.feed e.shown (echoed e bytes) = (run press e bytes).shown ∧
      Plain (run press e bytes) := by
  induction bytes generalizing e with
  | nil => exact ⟨rfl, h⟩
  | cons byte bytes ih =>
    obtain ⟨hstay, hrest⟩ := hs
    obtain ⟨hshows, hplain⟩ := input_echoes h hb hn (h80 byte List.mem_cons_self) hstay
    rw [echoed, Terminal.feed_append, hshows]
    exact ih hplain (input_safe hb byte).2 hstay.search
      (fun b hb ↦ h80 b (List.mem_cons_of_mem _ hb)) hrest

theorem bounded_press (hb : Bounded limits e) (bytes : Bytes) :
    Bounded limits (run press e bytes) :=
  invariant_run admissible_true (fun byte _ _ h ↦ (input_safe h byte).2) hb

/-- **What is echoed is what a redraw would show.** On a terminal on which a printable editor has
been drawn, typing bytes below 0x80 that neither search nor submit leaves what drawing the editor
behind them would, on any screen. -/
theorem echo_eq_redraw (maxLine maxHistory : ℕ) (actions : List Action) (bytes : Bytes)
    (t t' : Terminal.Screen) (ht : t.mode = .ground) (ht' : t'.mode = .ground) :
    let e := run act (LineEditor.new maxLine maxHistory) actions
    e.search = none → Plain e → (∀ b ∈ bytes, b < 0x80) →
      Admissible press (fun b e ↦ Stays (e.input b)) e bytes →
      Terminal.feed (Terminal.feed t e.redraw) (echoed e bytes) =
        Terminal.feed t' (run press e bytes).redraw := by
  intro e hn hp h80 hs
  have hb : Bounded (maxLine, maxHistory) e := bounded_run (.new maxLine maxHistory) actions
  obtain ⟨hshows, hplain⟩ := feed_echoed hp hb hn h80 hs
  rw [feed_redraw hp hb.cursor ht, hshows, feed_redraw hplain (bounded_press hb bytes).cursor ht']

/-- `ls` typed, a step left, and an `x` put in front of the `s`. -/
theorem echo_eq_redraw_typed :
    Plain (run act (LineEditor.new 80 10) [.prompt "$ ".toList]) ∧
      Terminal.feed
          (Terminal.feed ⟨[], 0, .ground⟩
            (run act (LineEditor.new 80 10) [.prompt "$ ".toList]).redraw)
          (echoed (run act (LineEditor.new 80 10) [.prompt "$ ".toList]) [0x6c, 0x73, 0x02, 0x78]) =
        Terminal.feed ⟨[], 0, .ground⟩
          (run press (run act (LineEditor.new 80 10) [.prompt "$ ".toList])
            [0x6c, 0x73, 0x02, 0x78]).redraw := by
  have hplain : Plain (run act (LineEditor.new 80 10) [.prompt "$ ".toList]) := by
    refine ⟨?_, .nil, .nil, .nil, by simp [run, act, setPrompt, LineEditor.new]⟩
    unfold Printable
    decide +kernel
  have hstays : Admissible press (fun b e ↦ Stays (e.input b))
      (run act (LineEditor.new 80 10) [.prompt "$ ".toList]) [0x6c, 0x73, 0x02, 0x78] :=
    ⟨⟨rfl, by rintro _ _ ⟨⟩⟩, ⟨rfl, by rintro _ _ ⟨⟩⟩, ⟨rfl, by rintro _ _ ⟨⟩⟩,
      ⟨rfl, by rintro _ _ ⟨⟩⟩, trivial⟩
  exact ⟨hplain, echo_eq_redraw 80 10 [.prompt "$ ".toList] [0x6c, 0x73, 0x02, 0x78] _ _ rfl rfl rfl
    hplain (by decide +kernel) hstays⟩

end LineEditor

end Mimic
