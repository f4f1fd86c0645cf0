import Mimic.Network.ScpSink

/-!
# Names received over SCP

`parse_cd` rewrites the name of a control line in three steps: control characters go, separators
become underscores, and pairs of dots do. No step brings back what an earlier one has removed, so
whatever is sent the name is a single harmless component (`parseCd_isSafe`). The sink gets its names
from nowhere else, and so do the files that it completes (`feedAll_isSafe`).
-/

namespace Mimic

namespace Scp

open GuardedRun

variable {sha256 : Bytes → Bytes} {text : Str} {x : Feed}

/-- A name that is a component by itself and cannot lead out of a directory or garble a log. -/
structure IsSafeName (name : Str) : Prop where
  ne_nil : name ≠ []
  plain : ∀ c ∈ name, c ≠ '/' ∧ c ≠ '\\' ∧ Text.isControl c = false
  dots : ¬ ['.', '.'] <:+: name

/-! ### The three steps -/

/-- What the collapse leaves is an underscore or was there before. -/
theorem mem_collapseDots {c : Char} (h : c ∈ collapseDots text) : c = '_' ∨ c ∈ text := by
  fun_induction collapseDots text with
  | case1 rest ih =>
    rcases List.mem_cons.mp h with rfl | h
    · exact Or.inl rfl
    · exact (ih h).imp id fun hmem ↦ List.mem_cons_of_mem _ (List.mem_cons_of_mem _ hmem)
  | case2 ch rest _ ih =>
    rcases List.mem_cons.mp h with rfl | h
    · exact Or.inr List.mem_cons_self
    · exact (ih h).imp id (List.mem_cons_of_mem _)
  | case3 => cases h

/-- A dot in front was there before. -/
theorem head?_of_collapseDots (h : (collapseDots text).head? = some '.') :
    text.head? = some '.' := by
  fun_cases collapseDots text with
  | case1 rest =>
    rw [collapseDots] at h
    cases h
  | case2 ch rest hpair =>
    rwa [collapseDots.eq_2 ch rest hpair] at h
  | case3 => cases h

/-- **No pair of dots is left**, and none comes together. -/
theorem not_dots_collapseDots (text : Str) : ¬ ['.', '.'] <:+: collapseDots text := by
  fun_induction collapseDots text with
  | case1 rest ih =>
    rw [List.infix_cons_iff, not_or]
    refine ⟨fun h ↦ ?_, ih⟩
    rw [List.cons_prefix_cons] at h
    exact absurd h.1 (by decide)
  | case2 ch rest hpair ih =>
    rw [List.infix_cons_iff, not_or]
    refine ⟨fun h ↦ ?_, ih⟩
    obtain ⟨rfl, hrest⟩ := List.cons_prefix_cons.mp h
    obtain ⟨more, hmore⟩ := hrest
    have hdot : (collapseDots rest).head? = some '.' := by
      rw [← hmore]
      rfl
    have hhead := head?_of_collapseDots hdot
    obtain ⟨rest, rfl⟩ := List.head?_eq_some_iff.mp hhead
    exact hpair rest rfl rfl
  | case3 =>
    rw [List.infix_nil]
    exact List.cons_ne_nil _ _

/-- **A sanitised name is safe**, whatever it was. -/
theorem isSafe_sanitizeName (rawName : Str) : IsSafeName (sanitizeName rawName) := by
  rw [sanitizeName]
  split
  · exact ⟨by decide, by simp [Text.isControl], by decide⟩
  · rename_i hne
    refine ⟨hne, fun c hc ↦ ?_, not_dots_collapseDots _⟩
    rcases mem_collapseDots hc with rfl | hc
    · decide
    -- the separators are gone, and an underscore is not a control character
    obtain ⟨ch, hch, rfl⟩ := List.mem_map.mp hc
    have hcontrol : Text.isControl ch = false := by simpa using (List.mem_filter.mp hch).2
    split
    · decide
    · rename_i hsep
      exact ⟨fun h ↦ hsep (Or.inl h), fun h ↦ hsep (Or.inr h), hcontrol⟩

theorem name_of_parseCd {line name : Str} {mode : UInt32} {size : ℕ}
    (h : parseCd line = some (mode, size, name)) : ∃ rawName, name = sanitizeName rawName := by
  rw [parseCd] at h
  repeat' split at h
  all_goals first
    | cases h
    | skip
  simp only [Option.bind_eq_bind, Option.bind_eq_some_iff] at h
  obtain ⟨mode', -, size', -, h⟩ := h
  cases h
  exact ⟨_, rfl⟩

/-- **The name of a control line is safe.** -/
theorem parseCd_isSafe (line name : Str) (mode : UInt32) (size : ℕ)
    (h : parseCd line = some (mode, size, name)) : IsSafeName name := by
  obtain ⟨rawName, rfl⟩ := name_of_parseCd h
  exact isSafe_sanitizeName rawName

/-- `C644 1` and two dots with a NUL between them. -/
def shieldedLine : Str := "C644 1 .".toList ++ ['\x00', '.']

theorem parseCd_isSafe_shielded : IsSafeName ['_'] :=
  parseCd_isSafe shieldedLine ['_'] 0o644 1 (by decide +kernel)

/-! ### The sink -/

/-- All names that the sink has are safe, and those of the files it has completed. -/
structure SafeNames (x : Feed) : Prop where
  dirs : ∀ dir ∈ x.sink.dirs, IsSafeName dir
  file : ∀ file, x.sink.file = some file → IsSafeName file.name
  done : ∀ file ∈ x.done, IsSafeName file.name ∧
    ∃ dirs, file.relDir = Vfs.joinSlash dirs ∧ ∀ dir ∈ dirs, IsSafeName dir

/-- **One control line.** -/
theorem handleControl_names {sink : ScpSink} (hdirs : ∀ dir ∈ sink.dirs, IsSafeName dir)
    (line : Bytes) : (∀ dir ∈ (sink.handleControl line).dirs, IsSafeName dir) ∧
      ∀ file, (sink.handleControl line).file = some file →
        sink.file = some file ∨ IsSafeName file.name := by
  have hsame : ∀ file, sink.file = some file → sink.file = some file ∨ IsSafeName file.name :=
    fun _ ↦ Or.inl
  rw [ScpSink.handleControl]
  split
  · split
    · rename_i mode size name hparse
      refine ⟨hdirs, fun file hfile ↦ Or.inr ?_⟩
      obtain rfl := Option.some.inj hfile
      obtain ⟨rawName, rfl⟩ := name_of_parseCd hparse
      exact isSafe_sanitizeName rawName
    · exact ⟨hdirs, hsame⟩
  · split
    · rename_i mode size name hparse
      obtain ⟨rawName, rfl⟩ := name_of_parseCd hparse
      split
      · exact ⟨List.forall_mem_append.mpr
          ⟨hdirs, List.forall_mem_singleton.mpr (isSafe_sanitizeName rawName)⟩, hsame⟩
      · exact ⟨hdirs, hsame⟩
    · exact ⟨hdirs, hsame⟩
  · exact ⟨fun dir hdir ↦ hdirs dir (List.mem_of_mem_dropLast hdir), hsame⟩
  · exact ⟨hdirs, hsame⟩

/-- **One byte.** -/
theorem SafeNames.step (h : SafeNames x) (b : UInt8) : SafeNames (feedByte sha256 b x) := by
  rw [feedByte]
  split
  · rename_i file hfile
    split
    · refine ⟨h.dirs, fun file' hfile' ↦ ?_, h.done⟩
      obtain rfl := Option.some.inj hfile'
      have hname : (file.receive x.sink.maxBytes b).name = file.name := by
        rw [Incoming.receive]
        split <;> rfl
      rw [hname]
      exact h.file file hfile
    · refine ⟨h.dirs, by rintro _ ⟨⟩, List.forall_mem_append.mpr ⟨h.done, ?_⟩⟩
      exact List.forall_mem_singleton.mpr ⟨h.file file hfile, x.sink.dirs, rfl, h.dirs⟩
  · split
    · have hempty : ∀ dir ∈ ({ x.sink with buf := [] } : ScpSink).dirs, IsSafeName dir := h.dirs
      obtain ⟨hdirs, hfile⟩ := handleControl_names hempty x.sink.buf
      exact ⟨hdirs, fun file hnew ↦ (hfile file hnew).elim (h.file file) id, h.done⟩
    split
    · split
      · exact ⟨h.dirs, h.file, h.done⟩
      · exact ⟨fun _ hdir ↦ absurd hdir List.not_mem_nil, by rintro _ ⟨⟩, h.done⟩
    · exact h

/-- **The names of the files received**: whatever is sent, and however it is cut, a file has a safe
name, and so has each directory that it is in. -/
theorem feedAll_isSafe (sha256 : Bytes → Bytes) (target : Str) (recursive : Bool) (maxBytes : ℕ)
    (chunks : List Bytes) :
    ∀ file ∈ (feedAll sha256 (.new target recursive maxBytes) chunks).2, IsSafeName file.name ∧
      ∃ dirs, file.relDir = Vfs.joinSlash dirs ∧ ∀ dir ∈ dirs, IsSafeName dir := by
  have hstart : SafeNames ⟨.new target recursive maxBytes, [], []⟩ :=
    ⟨fun _ hdir ↦ absurd hdir List.not_mem_nil, nofun, fun _ hfile ↦ absurd hfile List.not_mem_nil⟩
  have hfed : SafeNames (feed sha256 (.new target recursive maxBytes) chunks.flatten) :=
    invariant_run admissible_true (fun b _ _ hx ↦ hx.step b) hstart
  rw [feedAll_eq]
  exact hfed.done

end Scp

end Mimic
