import Lox.Proofs.LineNumbers

/-!
# How far a scan looks ahead

What two sources have in common at their beginning is scanned alike, up to its last two characters.
The proof goes through both sources in lock-step, one segment at a time: as long as what they share
reaches two characters past a segment, or one if that one is foreign, the segment ends at the same
place in both (`Fixed.endsBefore`).  Where this fails for the first time, all tokens that follow end
too late to be compared and all foreign characters that follow stand too late.
-/

namespace Lox.Lexical

/-! ### Tokens and reports at their places -/

def Segment.isForeign : Segment → Bool
  | foreign _ => true
  | _ => false

/-- The tokens of a source, the mark of the end apart, each with the place of its lexeme. -/
def tokensAt (source : String) : List (Place × Token) :=
  ((places source).filter Place.isLexeme).zip (scan source).tokens

/-- The reports of a source, each with the place that it is about. -/
def reportsAt (source : String) : List (Place × Report) :=
  ((places source).filter Place.isFault).zip (scan source).reports

/-- The reports of unexpected characters. -/
def unexpectedAt (source : String) : List (Place × Report) :=
  (reportsAt source).filter fun r => r.1.segment.isForeign

theorem forall₂_tokensFrom (offset : Nat) (line : UInt32) (ss : List Segment) :
    List.Forall₂ (fun p t => ∃ line, p.segment.token? line = some t)
      ((placesFrom offset ss).filter Place.isLexeme) (tokensFrom line ss) := by
  induction ss generalizing offset line with
  | nil => exact .nil
  | cons s rest ih =>
    have later := ih (offset + s.text.length) (line + s.lineEnds)
    cases s with
    | lexeme kind characters => exact .cons ⟨_, rfl⟩ later
    | _ => exact later

theorem forall₂_reportsFrom (offset : Nat) (line : UInt32) (ss : List Segment) :
    List.Forall₂ (fun p r => ∃ line, p.segment.report? line = some r)
      ((placesFrom offset ss).filter Place.isFault) (reportsFrom line ss) := by
  induction ss generalizing offset line with
  | nil => exact .nil
  | cons s rest ih =>
    have later := ih (offset + s.text.length) (line + s.lineEnds)
    cases s with
    | foreign c => exact .cons ⟨_, rfl⟩ later
    | openString body => exact .cons ⟨_, rfl⟩ later
    | _ => exact later

theorem length_lexemes (source : String) : ((places source).filter Place.isLexeme).length
    = (tokensFrom 1 (segments source.toList)).length :=
  (forall₂_tokensFrom 0 1 (segments source.toList)).length_eq

theorem length_faults (source : String) :
    ((places source).filter Place.isFault).length = (scan source).reports.length := by
  rw [scan_reports]
  exact (forall₂_reportsFrom 0 1 (segments source.toList)).length_eq

/-- The mark of the end has no place, so it falls away. -/
theorem tokensAt_eq (source : String) : tokensAt source
    = ((places source).filter Place.isLexeme).zip (tokensFrom 1 (segments source.toList)) := by
  have split (final : List Token) : ((places source).filter Place.isLexeme ++ []).zip
      (tokensFrom 1 (segments source.toList) ++ final)
      = ((places source).filter Place.isLexeme).zip (tokensFrom 1 (segments source.toList)) ++ [] :=
    List.zip_append (length_lexemes source)
  rw [tokensAt, scan_tokens, ← List.append_nil (List.filter _ _), split, List.append_nil,
    List.append_nil]

/-- Every token but the mark of the end is there. -/
theorem map_snd_tokensAt (source : String) :
    (scan source).tokens = (tokensAt source).map Prod.snd
      ++ [Token.endOfSource (lineAfter 1 (segments source.toList))] := by
  rw [tokensAt_eq, List.map_snd_zip (Nat.le_of_eq (length_lexemes source).symm), scan_tokens]

theorem map_snd_reportsAt (source : String) :
    (reportsAt source).map Prod.snd = (scan source).reports :=
  List.map_snd_zip (Nat.le_of_eq (length_faults source).symm)

theorem exists_token?_of_mem {source : String} {p : Place} {t : Token}
    (h : (p, t) ∈ tokensAt source) : ∃ line, p.segment.token? line = some t := by
  rw [tokensAt_eq] at h
  exact (List.forall₂_iff_zip.mp (forall₂_tokensFrom 0 1 (segments source.toList))).2 h

theorem exists_report?_of_mem {source : String} {p : Place} {r : Report}
    (h : (p, r) ∈ reportsAt source) : ∃ line, p.segment.report? line = some r := by
  rw [reportsAt, scan_reports] at h
  exact (List.forall₂_iff_zip.mp (forall₂_reportsFrom 0 1 (segments source.toList))).2 h

/-- Tokens and reports with their places are those of the scan, the mark of the end apart, and each is
what the segment at its place stands for. -/
structure Placed (source : String) : Prop where
  tokens : ∃ line, (scan source).tokens
    = (tokensAt source).map Prod.snd ++ [Token.endOfSource line]
  reports : (scan source).reports = (reportsAt source).map Prod.snd
  token : ∀ p t, (p, t) ∈ tokensAt source → ∃ line, p.segment.token? line = some t
  report : ∀ p r, (p, r) ∈ reportsAt source → ∃ line, p.segment.report? line = some r

theorem placed (source : String) : Placed source where
  tokens := ⟨_, map_snd_tokensAt source⟩
  reports := (map_snd_reportsAt source).symm
  token := fun _ _ => exists_token?_of_mem
  report := fun _ _ => exists_report?_of_mem

/-! ### What is compared -/

def tokensBefore (n : Nat) (source : String) : List (Place × Token) :=
  (tokensAt source).filter fun t => t.1.stop + 2 ≤ n

def unexpectedBefore (n : Nat) (source : String) : List (Place × Report) :=
  (unexpectedAt source).filter fun r => r.1.start < n

/-- A token or a report at the place is compared. -/
def Place.Settled (n : Nat) (p : Place) : Prop :=
  (p.isLexeme ∧ p.stop + 2 ≤ n) ∨ (p.segment.isForeign ∧ p.start < n)

/-! ### Segments that the shared text fixes -/

/-- The text after the segment is enough to know that the segment ends there, whatever follows. -/
inductive Fixed : Segment → List Char → Prop
  | twoMore {seg c d tail} : Fixed seg (c :: d :: tail)
  | foreignNext {seg c tail} (hc : classify c = .foreign) : Fixed seg (c :: tail)
  | foreign {c after} : Fixed (.foreign c) after

/-- Only the next character matters, and the one after it if the next one is a point. -/
theorem Segment.EndsBefore.congr_head {seg : Segment} {rest rest' : List Char}
    (h : seg.EndsBefore rest) (head : rest'.head? = rest.head?)
    (point : ∀ tail, rest = '.' :: tail → ∃ tail', rest' = '.' :: tail' ∧ tail'.head? = tail.head?) :
    seg.EndsBefore rest' := by
  cases h with
  | blank hc => exact .blank hc
  | comment hbody hrest => exact .comment hbody (head ▸ hrest)
  | punctuator hc => exact .punctuator hc
  | alone hc hrest => exact .alone hc (head ▸ hrest)
  | withEqual hc => exact .withEqual hc
  | slash hrest => exact .slash (head ▸ hrest)
  | word hc hcs hrest => exact .word hc hcs (head ▸ hrest)
  | whole hc hcs hrest hpoint =>
    refine .whole hc hcs (head ▸ hrest) ?_
    rintro d tail rfl
    obtain ⟨more, rfl⟩ := List.head?_eq_some_iff.mp head.symm
    obtain ⟨_, ⟨⟩, next⟩ := point more rfl
    obtain ⟨tail', rfl⟩ := List.head?_eq_some_iff.mp next.symm
    exact hpoint d tail' rfl
  | decimal hc hcs hd hds hrest => exact .decimal hc hcs hd hds (head ▸ hrest)
  | string hbody => exact .string hbody
  | foreign hc => exact .foreign hc
  | openString hbody =>
    obtain rfl := List.head?_eq_none_iff.mp head
    exact .openString hbody

theorem Fixed.endsBefore {seg : Segment} {after x y : List Char} (fixed : Fixed seg after)
    (h : seg.EndsBefore (after ++ x)) : seg.EndsBefore (after ++ y) := by
  cases fixed with
  | twoMore =>
    refine h.congr_head rfl ?_
    intro tail same
    obtain ⟨rfl, rfl⟩ := List.cons.inj same
    exact ⟨_, rfl, rfl⟩
  | foreignNext hc =>
    refine h.congr_head rfl ?_
    intro tail same
    obtain ⟨rfl, rfl⟩ := List.cons.inj same
    contradiction
  | foreign =>
    cases h with
    | foreign hc => exact .foreign hc

/-! ### Places further on -/

theorem start_of_mem_placesFrom {offset : Nat} {ss : List Segment} {p : Place}
    (h : p ∈ placesFrom offset ss) : offset ≤ p.start := by
  induction ss generalizing offset with
  | nil => contradiction
  | cons s rest ih =>
    rcases List.mem_cons.mp h with rfl | later
    · exact Nat.le_refl offset
    · exact Nat.le_trans (Nat.le_add_right _ _) (ih later)

theorem segment_mem_of_mem_placesFrom {offset : Nat} {ss : List Segment} {p : Place}
    (h : p ∈ placesFrom offset ss) : p.segment ∈ ss := by
  induction ss generalizing offset with
  | nil => contradiction
  | cons s rest ih =>
    rcases List.mem_cons.mp h with rfl | later
    · exact List.mem_cons_self
    · exact List.mem_cons_of_mem s (ih later)

theorem start_lt_stop {offset : Nat} {cs : List Char} {p : Place}
    (h : p ∈ placesFrom offset (segments cs)) : p.start < p.stop := by
  have filled := text_ne_nil_of_mem (segment_mem_of_mem_placesFrom h)
  have positive := List.length_pos_iff.mpr filled
  exact Nat.lt_add_of_pos_right positive

theorem classify_of_isForeign {offset : Nat} {c : Char} {cs : List Char} {p : Place}
    (h : p ∈ placesFrom offset (segments (c :: cs))) (start : p.start = offset)
    (foreign : p.segment.isForeign) : classify c = .foreign := by
  obtain ⟨seg, rest, ends, cut⟩ := exists_cut (List.cons_ne_nil c cs)
  rw [cut, segments_append ends] at h
  rcases List.mem_cons.mp h with rfl | later
  · cases ends with
    | foreign hc =>
      obtain ⟨rfl, _⟩ := List.cons.inj cut
      exact hc
    | _ => contradiction
  · have further := start_of_mem_placesFrom later
    have positive := List.length_pos_iff.mpr ends.text_ne_nil
    omega

/-! ### Where the sources part -/

theorem length_le_one_of_not_fixed {seg : Segment} {after : List Char} (h : ¬ Fixed seg after) :
    after.length ≤ 1 := by
  match after with
  | [] => exact Nat.zero_le 1
  | [_] => exact Nat.le_refl 1
  | _ :: _ :: _ => exact absurd .twoMore h

theorem not_settled_here {offset : Nat} {seg : Segment} {after : List Char}
    (stuck : ¬ Fixed seg after) :
    ¬ (⟨offset, seg⟩ : Place).Settled (offset + (seg.text ++ after).length) := by
  have short := length_le_one_of_not_fixed stuck
  rw [List.length_append]
  rintro (⟨_, ends⟩ | ⟨foreign, _⟩)
  · simp only [Place.stop] at ends
    omega
  · cases seg with
    | foreign c => exact stuck .foreign
    | _ => contradiction

theorem not_settled_later {offset : Nat} {seg : Segment} {after x : List Char}
    (stuck : ¬ Fixed seg after) {p : Place}
    (h : p ∈ placesFrom (offset + seg.text.length) (segments (after ++ x))) :
    ¬ p.Settled (offset + (seg.text ++ after).length) := by
  have short := length_le_one_of_not_fixed stuck
  have further := start_of_mem_placesFrom h
  have long := start_lt_stop h
  rw [List.length_append]
  rintro (⟨_, ends⟩ | ⟨foreign, starts⟩)
  · omega
  · -- the only place left begins with the one character that is still shared
    match after with
    | [] =>
      rw [List.length_nil] at starts
      omega
    | [c] =>
      rw [List.length_singleton] at starts
      exact stuck (.foreignNext (classify_of_isForeign h (by omega) foreign))
    | _ :: _ :: _ => exact stuck .twoMore

theorem not_settled_beyond {offset n : Nat} {seg : Segment} {cs : List Char}
    (long : n < seg.text.length) :
    ∀ p ∈ placesFrom offset (seg :: segments cs), ¬ p.Settled (offset + n) := by
  intro p hp
  rcases List.mem_cons.mp hp with rfl | later
  · rintro (⟨_, ends⟩ | ⟨foreign, starts⟩)
    · simp only [Place.stop] at ends
      omega
    · cases seg with
      | foreign c =>
        have single : (Segment.foreign c).text.length = 1 := rfl
        simp only at starts
        omega
      | _ => contradiction
  · have further := start_of_mem_placesFrom later
    have positive := start_lt_stop later
    rintro (⟨_, ends⟩ | ⟨_, starts⟩)
    · omega
    · omega

/-- Where the shared text fixes no segment, nothing that follows is compared. -/
theorem not_settled {offset : Nat} {shared x : List Char}
    (stuck : ∀ seg after, shared = seg.text ++ after → seg.EndsBefore (after ++ x) →
      ¬ Fixed seg after) :
    ∀ p ∈ placesFrom offset (segments (shared ++ x)), ¬ p.Settled (offset + shared.length) := by
  intro p hp
  by_cases empty : shared ++ x = []
  · rw [empty, segments_nil] at hp
    contradiction
  · obtain ⟨seg, rest, ends, cut⟩ := exists_cut empty
    rw [cut, segments_append ends] at hp
    by_cases fits : seg.text.length ≤ shared.length
    · obtain ⟨after, rfl⟩ : seg.text <+: shared :=
        List.prefix_of_prefix_length_le ⟨rest, cut.symm⟩ (List.prefix_append shared x) fits
      rw [List.append_assoc, List.append_cancel_left_eq] at cut
      subst cut
      have here := stuck seg after rfl ends
      rcases List.mem_cons.mp hp with rfl | later
      · exact not_settled_here here
      · exact not_settled_later here later
    · exact not_settled_beyond (Nat.lt_of_not_le fits) p hp

/-- Two sources with the same beginning have their first segments in common, and nothing after those
is compared. -/
theorem exists_common_segments (offset : Nat) (shared x y : List Char) :
    ∃ common later later', segments (shared ++ x) = common ++ later
      ∧ segments (shared ++ y) = common ++ later'
      ∧ (∀ p ∈ placesFrom (offset + (common.flatMap Segment.text).length) later,
          ¬ p.Settled (offset + shared.length))
      ∧ ∀ p ∈ placesFrom (offset + (common.flatMap Segment.text).length) later',
          ¬ p.Settled (offset + shared.length) := by
  by_cases next : ∃ seg after, shared = seg.text ++ after ∧ Fixed seg after
      ∧ seg.EndsBefore (after ++ x)
  · -- one segment off both sources, and less is shared by what remains of them
    obtain ⟨seg, after, cut, fixed, ends⟩ := next
    have shorter : after.length < shared.length := by
      have positive := List.length_pos_iff.mpr ends.text_ne_nil
      rw [cut, List.length_append]
      omega
    obtain ⟨common, later, later', left, right, stops, stops'⟩ :=
      exists_common_segments (offset + seg.text.length) after x y
    subst cut
    have total : offset + seg.text.length + after.length = offset + (seg.text ++ after).length := by
      rw [List.length_append, Nat.add_assoc]
    have reached : offset + seg.text.length + (common.flatMap Segment.text).length
        = offset + ((seg :: common).flatMap Segment.text).length := by
      rw [List.flatMap_cons, List.length_append, Nat.add_assoc]
    rw [total, reached] at stops stops'
    refine ⟨seg :: common, later, later', ?_, ?_, stops, stops'⟩
    · rw [List.append_assoc, segments_append ends, left, List.cons_append]
    · rw [List.append_assoc, segments_append (fixed.endsBefore ends), right, List.cons_append]
  · refine ⟨[], _, _, rfl, rfl, not_settled ?_, not_settled ?_⟩
    · intro seg after cut ends fixed
      exact next ⟨seg, after, cut, fixed, ends⟩
    · intro seg after cut ends fixed
      exact next ⟨seg, after, cut, fixed, fixed.endsBefore ends⟩
termination_by shared.length
decreasing_by exact shorter

/-! ### Tokens and reports that are compared -/

theorem placesFrom_append (offset : Nat) (before after : List Segment) :
    placesFrom offset (before ++ after) = placesFrom offset before
      ++ placesFrom (offset + (before.flatMap Segment.text).length) after := by
  induction before generalizing offset with
  | nil => rfl
  | cons s rest ih =>
    rw [List.cons_append, placesFrom, placesFrom, ih, List.flatMap_cons, List.length_append,
      Nat.add_assoc, List.cons_append]

theorem filter_zip_append {α β : Type} (p : α → Bool) {as bs : List α} {cs ds : List β}
    (length : as.length = cs.length) (none : ∀ b ∈ bs, ¬ p b) :
    ((as ++ bs).zip (cs ++ ds)).filter (fun pair => p pair.1)
      = (as.zip cs).filter fun pair => p pair.1 := by
  rw [List.zip_append length, List.filter_append]
  have empty : (bs.zip ds).filter (fun pair => p pair.1) = [] := by
    refine List.filter_eq_nil_iff.mpr ?_
    rintro ⟨b, d⟩ mem
    exact none b (List.of_mem_zip mem).1
  rw [empty, List.append_nil]

section Common

variable {n : Nat} {source : String} {common later : List Segment}

theorem tokensBefore_eq (cut : segments source.toList = common ++ later)
    (stops : ∀ p ∈ placesFrom (0 + (common.flatMap Segment.text).length) later, ¬ p.Settled n) :
    tokensBefore n source = (((placesFrom 0 common).filter Place.isLexeme).zip
      (tokensFrom 1 common)).filter fun t => t.1.stop + 2 ≤ n := by
  rw [tokensBefore, tokensAt_eq, places, cut, placesFrom_append, tokensFrom_append,
    List.filter_append]
  refine filter_zip_append (fun p : Place => p.stop + 2 ≤ n)
    (forall₂_tokensFrom 0 1 common).length_eq ?_
  intro p hp early
  obtain ⟨mem, isLexeme⟩ := List.mem_filter.mp hp
  exact stops p mem (.inl ⟨isLexeme, of_decide_eq_true early⟩)

theorem unexpectedBefore_eq (cut : segments source.toList = common ++ later)
    (stops : ∀ p ∈ placesFrom (0 + (common.flatMap Segment.text).length) later, ¬ p.Settled n) :
    unexpectedBefore n source = (((placesFrom 0 common).filter Place.isFault).zip
      (reportsFrom 1 common)).filter fun r => r.1.start < n && r.1.segment.isForeign := by
  rw [unexpectedBefore, unexpectedAt, reportsAt, places, scan_reports, cut, placesFrom_append,
    reportsFrom_append, List.filter_append, List.filter_filter]
  refine filter_zip_append (fun p : Place => p.start < n && p.segment.isForeign)
    (forall₂_reportsFrom 0 1 common).length_eq ?_
  intro p hp early
  obtain ⟨mem, _⟩ := List.mem_filter.mp hp
  obtain ⟨starts, foreign⟩ := (Bool.and_eq_true _ _).mp early
  exact stops p mem (.inr ⟨foreign, of_decide_eq_true starts⟩)

end Common

/-! ### What is settled comes first -/

theorem filter_prefix_of_pairwise {α : Type} {p : α → Bool} {as : List α}
    (h : as.Pairwise fun a b => p b → p a) : as.filter p <+: as := by
  induction h with
  | nil => exact List.prefix_rfl
  | @cons a as closed _ ih =>
    by_cases ha : p a
    · rw [List.filter_cons_of_pos ha]
      exact List.cons_prefix_cons.mpr ⟨rfl, ih⟩
    · have none : as.filter p = [] :=
        List.filter_eq_nil_iff.mpr fun b hb later => ha (closed b hb later)
      rw [List.filter_cons_of_neg ha, none]
      exact List.nil_prefix

theorem pairwise_placesFrom (offset : Nat) (ss : List Segment) :
    (placesFrom offset ss).Pairwise fun p q => p.stop ≤ q.start := by
  induction ss generalizing offset with
  | nil => exact .nil
  | cons s rest ih => exact .cons (fun _ hq => start_of_mem_placesFrom hq) (ih _)

theorem start_le_stop (p : Place) : p.start ≤ p.stop := Nat.le_add_right _ _

theorem pairwise_zip_places {α : Type} {source : String} (p : Place → Bool) {as : List α}
    (length : ((places source).filter p).length = as.length) :
    (((places source).filter p).zip as).Pairwise fun a b => a.1.stop ≤ b.1.start := by
  have ordered := (pairwise_placesFrom 0 (segments source.toList)).filter p
  rw [← places, ← List.map_fst_zip (Nat.le_of_eq length)] at ordered
  exact List.pairwise_map.mp ordered

theorem tokensBefore_prefix (n : Nat) (source : String) :
    tokensBefore n source <+: tokensAt source := by
  have ordered := pairwise_zip_places Place.isLexeme (length_lexemes source)
  rw [← tokensAt_eq] at ordered
  refine filter_prefix_of_pairwise (ordered.imp ?_)
  intro a b ordered early
  have within := start_le_stop b.1
  rw [decide_eq_true_eq] at early ⊢
  omega

theorem unexpectedBefore_prefix (n : Nat) (source : String) :
    unexpectedBefore n source <+: unexpectedAt source := by
  have ordered := pairwise_zip_places Place.isFault (length_faults source)
  refine filter_prefix_of_pairwise ((ordered.filter _).imp ?_)
  intro a b ordered early
  have within := start_le_stop a.1
  rw [decide_eq_true_eq] at early ⊢
  omega

theorem exists_shared {n : Nat} {u v : List Char} (hu : n ≤ u.length)
    (same : u.take n = v.take n) :
    ∃ shared x y, shared.length = n ∧ u = shared ++ x ∧ v = shared ++ y := by
  refine ⟨u.take n, u.drop n, v.drop n, List.length_take_of_le hu, ?_, ?_⟩
  · rw [List.take_append_drop]
  · rw [same, List.take_append_drop]

/-- Two sources of at least `n` characters that agree on the first `n` have the same tokens up to two
characters before the end of these and the same unexpected characters among them.  They come first
in the scan, so no text that comes later takes any of them back. -/
theorem scan_lookahead {n : Nat} {u v : String} (hu : n ≤ u.length)
    (same : u.toList.take n = v.toList.take n) :
    tokensBefore n u = tokensBefore n v ∧ unexpectedBefore n u = unexpectedBefore n v
      ∧ tokensBefore n u <+: tokensAt u ∧ unexpectedBefore n u <+: unexpectedAt u
      ∧ Placed u ∧ Placed v := by
  rw [← String.length_toList] at hu
  obtain ⟨shared, x, y, rfl, left, right⟩ := exists_shared hu same
  obtain ⟨common, later, later', cut, cut', stops, stops'⟩ := exists_common_segments 0 shared x y
  rw [← left] at cut
  rw [← right] at cut'
  rw [Nat.zero_add shared.length] at stops stops'
  refine ⟨?_, ?_, tokensBefore_prefix _ u, unexpectedBefore_prefix _ u, placed u, placed v⟩
  · rw [tokensBefore_eq cut stops, tokensBefore_eq cut' stops']
  · rw [unexpectedBefore_eq cut stops, unexpectedBefore_eq cut' stops']

/-- A string is left open in one source and closed in the other.  The number and the foreign character
before it are the same in both. -/
theorem scan_lookahead_openString :
    6 ≤ "1.5 @\"a".length ∧ "1.5 @\"a".toList.take 6 = "1.5 @\"b\" c".toList.take 6
      ∧ tokensBefore 6 "1.5 @\"a" = tokensBefore 6 "1.5 @\"b\" c"
      ∧ unexpectedBefore 6 "1.5 @\"a" = unexpectedBefore 6 "1.5 @\"b\" c"
      ∧ (tokensBefore 6 "1.5 @\"a").map (fun t => t.1.stop) = [3]
      ∧ (unexpectedBefore 6 "1.5 @\"a").map (fun r => r.1.start) = [4] := by
  have long : 6 ≤ "1.5 @\"a".length := by decide
  have same : "1.5 @\"a".toList.take 6 = "1.5 @\"b\" c".toList.take 6 := by decide
  obtain ⟨tokens, reports, _⟩ := scan_lookahead long same
  exact ⟨long, same, tokens, reports, by decide +kernel, by decide +kernel⟩

end Lox.Lexical
