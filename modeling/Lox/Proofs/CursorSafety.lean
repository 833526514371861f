import Lox.Proofs.CursorStep

/-!
# The cursor stays in its source

A run meets no fault and ends.  On the way both offsets are boundaries between characters of the
source, no character is taken that is not there, and the outcome is that of the scan.
-/

namespace Lox.Lexical

namespace Cursor

variable {σ : Type} {source : String} {s : Cursor σ}

/-! ### Offsets -/

structure InBounds (source : String) (s : Cursor σ) : Prop where
  start_le : s.start ≤ s.current
  current_le : s.current ≤ source.utf8ByteSize
  start : (⟨s.start⟩ : String.Pos.Raw).IsValid source
  current : (⟨s.current⟩ : String.Pos.Raw).IsValid source
  closed : s.point = .closed → s.start + 1 ≤ s.current - 1
    ∧ (⟨s.start + 1⟩ : String.Pos.Raw).IsValid source
    ∧ (⟨s.current - 1⟩ : String.Pos.Raw).IsValid source
  numeral : s.point = .numeral →
    ∃ text, slice source s.start s.current = .ok text ∧ text ∈ Pattern.number.language

theorem isValid_byteLength {before after : List Char} (h : source.toList = before ++ after) :
    (⟨byteLength before⟩ : String.Pos.Raw).IsValid source := by
  rw [String.Pos.Raw.isValid_iff_exists_append]
  refine ⟨String.ofList before, String.ofList after, ?_, ?_⟩
  · rw [← String.ofList_append, ← h, String.ofList_toList]
  · rw [← byteLength_ofList]
    rfl

/-- The cursor stays where it is, or goes past the character of the source that it stands before. -/
def TakesOne (source : String) (s s' : Cursor σ) : Prop :=
  s'.current = s.current ∨ ∃ before c after, source.toList = before ++ c :: after
    ∧ s.current = byteLength before ∧ s'.current = byteLength (before ++ [c])

theorem TakesOne.le {s s' : Cursor σ} (h : TakesOne source s s') : s.current ≤ s'.current := by
  rcases h with same | ⟨before, c, after, _, old, new⟩
  · exact same.ge
  · rw [old, new, byteLength_append]
    omega

/-! ### A cursor that tracks the segments -/

variable [Sink σ] {sink : σ} {past : List Segment} {taken rest : List Char}

theorem Tracks.inBounds (h : Tracks source sink s past taken rest) : InBounds source s where
  start_le := by
    obtain ⟨earlier, ⟨later, hlater⟩, start⟩ := h.before
    rw [start, h.current, ← hlater, byteLength_append, byteLength_append]
    omega
  current_le := by
    have size := h.size_eq
    omega
  start := by
    obtain ⟨earlier, ⟨later, hlater⟩, start⟩ := h.before
    have whole : source.toList = earlier ++ (later ++ (taken ++ rest)) := by
      rw [h.whole, ← hlater, List.append_assoc]
    rw [start]
    exact isValid_byteLength whole
  current := by
    rw [h.current]
    exact isValid_byteLength (h.whole.trans (List.append_assoc _ _ _).symm)
  closed := by
    intro hp
    have form := h.form
    rw [hp] at form
    cases form with | @closed body rest hbody
    obtain ⟨first, last⟩ := h.offsets_closed
    have before : source.toList = (passed past ++ ['"']) ++ (body ++ '"' :: rest) := by
      simpa using h.whole
    have after : source.toList = (passed past ++ ['"'] ++ body) ++ '"' :: rest := by
      simpa using h.whole
    rw [first, last]
    exact ⟨by simp, isValid_byteLength before, isValid_byteLength after⟩
  numeral := by
    intro hp
    have form := h.form
    rw [hp] at form
    cases form with | numeral ends
    exact ⟨taken, h.slice_eq ends.text_ne_nil, mem_ofKind ends⟩

theorem Tracks.takesOne {s' : Cursor σ} {past' : List Segment} {taken' rest' : List Char}
    (h : Tracks source sink s past taken rest) (h' : Tracks source sink s' past' taken' rest')
    (hrest : rest = rest' ∨ ∃ c, rest = c :: rest') : TakesOne source s s' := by
  have whole : source.toList = passed past ++ taken ++ rest := by
    rw [h.whole, List.append_assoc]
  have whole' : source.toList = passed past' ++ taken' ++ rest' := by
    rw [h'.whole, List.append_assoc]
  rcases hrest with rfl | ⟨c, rfl⟩
  · have same := List.append_cancel_right (whole'.symm.trans whole)
    exact .inl (by rw [h.current, h'.current, same])
  · refine .inr ⟨passed past ++ taken, c, rest', whole, h.current, ?_⟩
    have split : passed past ++ taken ++ c :: rest' = passed past ++ taken ++ [c] ++ rest' := by
      simp
    have same := List.append_cancel_right (whole'.symm.trans (whole.trans split))
    rw [h'.current, same]

/-! ### Runs -/

section Runs

variable (small : newlines source.toList ≤ UInt32.size - 2)

include small

theorem Tracks.exists_step (h : Tracks source sink s past taken rest) :
    ∃ s' past' taken' rest', s.step source = .ok s' ∧ Tracks source sink s' past' taken' rest'
      ∧ TakesOne source s s' := by
  by_cases hd : s.point = .done
  · refine ⟨s, past, taken, rest, ?_, h, .inl rfl⟩
    simp only [step, hd]
  · obtain ⟨s', past', taken', rest', made, tracks, hrest, _⟩ := h.advances small hd
    exact ⟨s', past', taken', rest', made, tracks, h.takesOne tracks hrest⟩

theorem run_tracks (sink : σ) (n : Nat) :
    ∃ s past taken rest, run source sink n = .ok s ∧ Tracks source sink s past taken rest := by
  induction n with
  | zero => exact ⟨_, _, _, _, rfl, tracks_initial source sink⟩
  | succ n ih =>
    obtain ⟨s, past, taken, rest, made, tracks⟩ := ih
    obtain ⟨s', past', taken', rest', stepped, tracks', _⟩ := tracks.exists_step small
    refine ⟨s', past', taken', rest', ?_, tracks'⟩
    rw [run, made, ok_bind, stepped]

theorem run_takesOne {s s' : Cursor σ} {n : Nat} (hs : run source sink n = .ok s)
    (hs' : run source sink (n + 1) = .ok s') : TakesOne source s s' := by
  obtain ⟨t, past, taken, rest, made, tracks⟩ := run_tracks small sink n
  obtain rfl : t = s := Except.ok.inj (made.symm.trans hs)
  obtain ⟨t', _, _, _, stepped, _, takes⟩ := tracks.exists_step small
  rw [run, hs, ok_bind, stepped] at hs'
  exact Except.ok.inj hs' ▸ takes

theorem current_le_run {s s' : Cursor σ} {n k : Nat} (hs : run source sink n = .ok s)
    (hs' : run source sink (n + k) = .ok s') : s.current ≤ s'.current := by
  induction k generalizing s' with
  | zero =>
    obtain rfl : s = s' := Except.ok.inj (hs.symm.trans hs')
    exact le_rfl
  | succ k ih =>
    obtain ⟨t, _, _, _, made, _⟩ := run_tracks small sink (n + k)
    exact (ih made).trans (run_takesOne small made hs').le

theorem current_lt_run {s s' : Cursor σ} {n k : Nat} (hs : run source sink n = .ok s)
    (hp : s.point = .between) (hlt : s.current < source.utf8ByteSize)
    (hs' : run source sink (n + 1 + k) = .ok s') : s.current < s'.current := by
  obtain ⟨t, past, taken, rest, made, tracks⟩ := run_tracks small sink n
  obtain rfl : t = s := Except.ok.inj (made.symm.trans hs)
  obtain ⟨point, start, current, p⟩ := t
  obtain rfl : point = .between := hp
  have form : Form .between taken rest := tracks.form
  cases form
  cases rest with
  | nil =>
    have size : source.utf8ByteSize = current := tracks.size_eq
    have inside : current < source.utf8ByteSize := hlt
    omega
  | cons c rest =>
    have stepped := (step_between_cons tracks).1
    have next : run source sink (n + 1) = .ok ⟨.begun c, current, current + c.utf8Size, p⟩ := by
      rw [run, hs, ok_bind, stepped]
    have later : current + c.utf8Size ≤ s'.current := current_le_run small next hs'
    have positive := c.utf8Size_pos
    show current < s'.current
    omega

theorem exists_done {s : Cursor σ} {past : List Segment} {taken rest : List Char} {n : Nat}
    (hs : run source sink n = .ok s) (h : Tracks source sink s past taken rest) :
    ∃ m ≤ n + weight s.point rest, ∃ s' past', run source sink m = .ok s' ∧ s'.point = .done
      ∧ Tracks source sink s' past' [] [] := by
  by_cases hd : s.point = .done
  · have form := h.form
    rw [hd] at form
    cases form
    exact ⟨n, by omega, s, past, hs, hd, h⟩
  · obtain ⟨s', past', taken', rest', stepped, tracks, _, lower⟩ := h.advances small hd
    have next : run source sink (n + 1) = .ok s' := by rw [run, hs, ok_bind, stepped]
    obtain ⟨m, hm, found⟩ := exists_done next tracks
    exact ⟨m, by omega, found⟩
termination_by weight s.point rest
decreasing_by exact lower

end Runs

theorem Tracks.outcome (h : Tracks source sink s past [] []) (hd : s.point = .done) :
    (s.progress.tokens.toList, s.progress.sink) = scanInto source sink := by
  have cut := h.cut
  simp only [List.append_nil, segments_nil] at cut
  rw [scanInto, cut, h.progress, hd]
  rfl

/-- What is true of all runs of the cursor over a source. -/
structure Safe (source : String) (sink : σ) : Prop where
  inBounds : ∀ n, ∃ s, run source sink n = .ok s ∧ InBounds source s
  takesOne : ∀ n s s', run source sink n = .ok s → run source sink (n + 1) = .ok s' →
    TakesOne source s s'
  forward : ∀ n k s s', run source sink n = .ok s → s.point = .between →
    s.current < source.utf8ByteSize → run source sink (n + 1 + k) = .ok s' →
    s.current < s'.current
  ends : ∃ n ≤ 5 * source.length + 1, ∃ s, run source sink n = .ok s ∧ s.point = .done
    ∧ (s.progress.tokens.toList, s.progress.sink) = scanInto source sink

/-- Whatever the source holds, a run meets no fault, stays in the source and ends with the outcome of
the scan, provided that the lines can be counted. -/
theorem run_safe (source : String) (sink : σ) (small : newlines source.toList ≤ UInt32.size - 2) :
    Safe source sink where
  inBounds := by
    intro n
    obtain ⟨s, past, taken, rest, made, tracks⟩ := run_tracks small sink n
    exact ⟨s, made, tracks.inBounds⟩
  takesOne := by
    intro n s s' hs hs'
    exact run_takesOne small hs hs'
  forward := by
    intro n k s s' hs hp hlt hs'
    exact current_lt_run small hs hp hlt hs'
  ends := by
    have first : weight (initial sink).point source.toList = 5 * source.length + 1 := by
      rw [weight, String.length_toList]
      rfl
    have begins : run source sink 0 = .ok (initial sink) := rfl
    obtain ⟨m, hm, s, past, made, hd, tracks⟩ :=
      exists_done small begins (tracks_initial source sink)
    exact ⟨m, by omega, s, made, hd, tracks.outcome hd⟩

theorem run_safe_nulls : newlines "\x00é\"\x00\n\" 1.5.\x00//é".toList ≤ UInt32.size - 2
    ∧ Safe "\x00é\"\x00\n\" 1.5.\x00//é" ({} : Collector) :=
  ⟨by decide, run_safe _ _ (by decide)⟩

end Cursor

end Lox.Lexical
