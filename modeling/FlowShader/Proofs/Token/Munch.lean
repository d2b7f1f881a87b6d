import FlowShader.Proofs.Token.Spelled

namespace FlowShader

/-- A token with the characters that spell it. -/
structure Lexeme extends Located where
  chars : List Char

def Lexeme.stop (l : Lexeme) : Nat := l.position + l.chars.length

variable {source : List Char} {previous : Option Token} {start stop stop' i : Nat} {c : Char} {l : Lexeme}
  {ls ls' : List Lexeme}

structure Lexeme.Munched (source : List Char) (previous : Option Token) (l : Lexeme) : Prop where
  stands : l.chars <+: source.drop l.position
  spelled : Token.Spelled previous l.chars l.token
  longest (chars : List Char) : chars <+: source.drop l.position →
    ∀ previous t, Token.Spelled previous chars t → chars.length ≤ l.chars.length

def Munched (source : List Char) : Option Token → List Lexeme → Prop
  | _, [] => True
  | previous, l :: ls => l.Munched source previous ∧ Munched source (some l.token) ls

/-- Between `start` and `stop` the text consists of the lexemes, in their order and without overlap, and of
blanks. -/
structure Cuts (source : List Char) (previous : Option Token) (start stop : Nat) (ls : List Lexeme) : Prop where
  start_le : start ≤ stop
  stop_le : stop ≤ source.length
  within : ∀ l ∈ ls, start ≤ l.position ∧ l.stop ≤ stop
  apart : ls.Pairwise fun l m => l.stop ≤ m.position
  blank (i : Nat) : start ≤ i → i < stop → (∀ l ∈ ls, ¬ (l.position ≤ i ∧ i < l.stop)) →
    ∀ c ∈ source[i]?, Text.isBlank c = true
  munched : Munched source previous ls

/-- No token can be read here, and no blank either. -/
structure Unreadable (source : List Char) (position : Nat) : Prop where
  visible : ∃ c, source[position]? = some c ∧ Text.isBlank c = false
  unspelled (chars : List Char) : chars <+: source.drop position → ∀ previous t, ¬ Token.Spelled previous chars t

namespace Lexeme.Munched

theorem head (h : l.Munched source previous) :
    ∃ c rest, source.drop l.position = c :: rest ∧ Text.isBlank c = false := by
  obtain ⟨more, hmore⟩ := h.stands
  obtain ⟨c, rest, -, -, heq, hblank, -⟩ := h.spelled.readsAtLeast none 0 more
  exact ⟨c, rest, hmore ▸ heq, hblank⟩

theorem visible (h : l.Munched source previous) : ∃ c, source[l.position]? = some c ∧ Text.isBlank c = false := by
  obtain ⟨c, rest, heq, hblank⟩ := h.head
  refine ⟨c, ?_, hblank⟩
  rw [← List.head?_drop, heq]
  rfl

theorem stop_le (h : l.Munched source previous) : l.stop ≤ source.length := by
  have hlength := h.stands.length_le
  obtain ⟨c, hc, -⟩ := h.visible
  obtain ⟨hlt, -⟩ := List.getElem?_eq_some_iff.1 hc
  rw [List.length_drop] at hlength
  rw [Lexeme.stop]
  omega

theorem start_lt (h : l.Munched source previous) : l.position < l.stop := by
  obtain ⟨c, rest, -, -, heq, -, -, -, -⟩ := h.spelled.readsAtLeast none 0 []
  have hlength := congrArg List.length heq
  simp only [List.append_nil, List.length_cons] at hlength
  rw [Lexeme.stop]
  omega

theorem unique {m : Lexeme} (hl : l.Munched source previous) (hm : m.Munched source previous)
    (h : l.position = m.position) : l = m := by
  have hle := hl.longest m.chars (h ▸ hm.stands) previous m.token hm.spelled
  have hge := hm.longest l.chars (h ▸ hl.stands) previous l.token hl.spelled
  have hchars : l.chars = m.chars :=
    (List.prefix_of_prefix_length_le hl.stands (h ▸ hm.stands) hge).eq_of_length (by omega)
  have htoken : l.token = m.token := hl.spelled.unique (hchars ▸ hm.spelled)
  obtain ⟨⟨t, p⟩, chars⟩ := l
  obtain ⟨⟨t', p'⟩, chars'⟩ := m
  obtain rfl : t = t' := htoken
  obtain rfl : p = p' := h
  obtain rfl : chars = chars' := hchars
  rfl

end Lexeme.Munched

namespace Cuts

theorem nil_iff : Cuts source previous start stop [] ↔
    start ≤ stop ∧ stop ≤ source.length ∧ ∀ i, start ≤ i → i < stop → ∀ c ∈ source[i]?, Text.isBlank c = true :=
  ⟨fun h => ⟨h.start_le, h.stop_le, fun i hi hi' => h.blank i hi hi' nofun⟩,
    fun ⟨hle, hstop, hblank⟩ => ⟨hle, hstop, nofun, .nil, fun i hi hi' _ => hblank i hi hi', trivial⟩⟩

theorem cons_iff : Cuts source previous start stop (l :: ls) ↔
    Cuts source previous start l.position [] ∧ l.Munched source previous ∧
      Cuts source (some l.token) l.stop stop ls := by
  constructor
  · intro h
    obtain ⟨hwithin, hlater⟩ := List.forall_mem_cons.1 h.within
    obtain ⟨hfirst, hapart⟩ := List.pairwise_cons.1 h.apart
    have hlt := h.munched.1.start_lt
    refine ⟨nil_iff.2 ⟨hwithin.1, ?_, fun i hi hi' => ?_⟩, h.munched.1, ?_⟩
    · exact (Nat.le_of_lt hlt).trans h.munched.1.stop_le
    · refine h.blank i hi (by omega) (List.forall_mem_cons.2 ⟨by omega, fun m hm => ?_⟩)
      have := hfirst m hm
      omega
    · refine ⟨hwithin.2, h.stop_le, fun m hm => ⟨hfirst m hm, (hlater m hm).2⟩, hapart, fun i hi hi' hout => ?_,
        h.munched.2⟩
      exact h.blank i (by omega) hi' (List.forall_mem_cons.2 ⟨by omega, hout⟩)
  · rintro ⟨hgap, hl, hrest⟩
    have hlt := hl.start_lt
    have hgap_le := hgap.start_le
    have hrest_le := hrest.start_le
    refine ⟨by omega, hrest.stop_le, List.forall_mem_cons.2 ⟨⟨hgap_le, hrest_le⟩, fun m hm => ?_⟩,
      List.pairwise_cons.2 ⟨fun m hm => (hrest.within m hm).1, hrest.apart⟩, fun i hi hi' hout => ?_, hl, hrest.munched⟩
    · have := hrest.within m hm
      omega
    · obtain ⟨hout, hlater⟩ := List.forall_mem_cons.1 hout
      rcases Nat.lt_or_ge i l.position with hlow | hhigh
      · exact hgap.blank i hi hlow nofun
      · exact hrest.blank i (by omega) hi' hlater

theorem skip (hc : source[start]? = some c) (hblank : Text.isBlank c = true)
    (h : Cuts source previous (start + 1) stop ls) : Cuts source previous start stop ls := by
  have hle := h.start_le
  refine ⟨by omega, h.stop_le, fun l hl => ⟨?_, (h.within l hl).2⟩, h.apart, fun i hi hi' hout => ?_, h.munched⟩
  · have := (h.within l hl).1
    omega
  · rcases Nat.eq_or_lt_of_le hi with rfl | hlt
    · intro d hd
      rw [hc] at hd
      obtain rfl := Option.some.inj hd
      exact hblank
    · exact h.blank i hlt hi' hout

theorem gap_unique {previous' : Option Token} (h : Cuts source previous start stop [])
    (h' : Cuts source previous' start stop' []) (hstop : ∀ c ∈ source[stop]?, Text.isBlank c = false)
    (hstop' : ∀ c ∈ source[stop']?, Text.isBlank c = false) : stop = stop' := by
  have hle {m n : Nat} {p : Option Token} (h : Cuts source p start n [])
      (hm : start ≤ m) (hvisible : ∀ c ∈ source[m]?, Text.isBlank c = false) : n ≤ m := by
    by_contra hlt
    have hlength := h.stop_le
    have hc := List.getElem?_eq_getElem (l := source) (i := m) (by omega)
    exact Bool.false_ne_true ((hvisible _ hc).symm.trans (h.blank m hm (by omega) nofun _ hc))
  exact Nat.le_antisymm (hle h h'.start_le hstop') (hle h' h.start_le hstop)

end Cuts

def ScanEnds (source : List Char) (stop : Nat) : Prop := stop = source.length ∨ Unreadable source stop

theorem ScanEnds.visible (h : ScanEnds source stop) : ∀ c ∈ source[stop]?, Text.isBlank c = false := by
  rcases h with rfl | h
  · intro c hc
    rw [List.getElem?_eq_none (Nat.le_refl _)] at hc
    cases hc
  · obtain ⟨d, hd, hblank⟩ := h.visible
    intro c hc
    rw [hd] at hc
    obtain rfl := Option.some.inj hc
    exact hblank

theorem Lexeme.Munched.not_scanEnds (h : l.Munched source previous) : ¬ ScanEnds source l.position := by
  rintro (hend | hend)
  · have hlt := h.start_lt
    have hle := h.stop_le
    omega
  · exact hend.unspelled l.chars h.stands previous l.token h.spelled

theorem Lexeme.Munched.visible_of_mem (h : l.Munched source previous) :
    ∀ c ∈ source[l.position]?, Text.isBlank c = false := by
  obtain ⟨d, hd, hblank⟩ := h.visible
  intro c hc
  rw [hd] at hc
  obtain rfl := Option.some.inj hc
  exact hblank

theorem Cuts.unique (h : Cuts source previous start stop ls) (h' : Cuts source previous start stop' ls')
    (hend : ScanEnds source stop) (hend' : ScanEnds source stop') : ls = ls' ∧ stop = stop' := by
  induction ls generalizing previous start ls' with
  | nil =>
      cases ls' with
      | nil => exact ⟨rfl, h.gap_unique h' hend.visible hend'.visible⟩
      | cons m ls' =>
          obtain ⟨hgap, hm, -⟩ := cons_iff.1 h'
          obtain rfl := h.gap_unique hgap hend.visible hm.visible_of_mem
          exact absurd hend hm.not_scanEnds
  | cons l ls ih =>
      obtain ⟨hgap, hl, hrest⟩ := cons_iff.1 h
      cases ls' with
      | nil =>
          obtain rfl := h'.gap_unique hgap hend'.visible hl.visible_of_mem
          exact absurd hend' hl.not_scanEnds
      | cons m ls' =>
          obtain ⟨hgap', hm, hrest'⟩ := cons_iff.1 h'
          obtain rfl := hl.unique hm (hgap.gap_unique hgap' hl.visible_of_mem hm.visible_of_mem)
          obtain ⟨rfl, rfl⟩ := ih hrest hrest'
          exact ⟨rfl, rfl⟩

/-- The error where no token can be read: a point without digits, or another character. -/
inductive Faults (source : List Char) (position : Nat) : SyntaxError → Prop
  | malformed (h : source[position]? = some '.') : Faults source position (.malformedNumber position)
  | unexpected {c : Char} (h : source[position]? = some c) (hc : c ≠ '.') :
      Faults source position (.unexpectedCharacter c position)

theorem Faults.unique {e e' : SyntaxError} (h : Faults source stop e) (h' : Faults source stop e') : e = e' := by
  cases h with
  | malformed h =>
      cases h' with
      | malformed => rfl
      | unexpected h' hc => exact absurd (Option.some.inj (h'.symm.trans h)) hc
  | unexpected h hc =>
      cases h' with
      | malformed h' => exact absurd (Option.some.inj (h.symm.trans h')) hc
      | unexpected h' => rw [Option.some.inj (h.symm.trans h')]

namespace Scan

inductive Finishes (source : List Char) (stop : Nat) : Scan → Prop
  | eof (h : stop = source.length) : Finishes source stop ⟨[⟨.eof, stop⟩], none⟩
  | fault {e : SyntaxError} (h : Unreadable source stop) (he : Faults source stop e) :
      Finishes source stop ⟨[], some e⟩

theorem Finishes.scanEnds {s : Scan} (h : Finishes source stop s) : ScanEnds source stop := by
  cases h with
  | eof h => exact .inl h
  | fault h => exact .inr h

theorem Finishes.unique {s s' : Scan} (h : Finishes source stop s) (h' : Finishes source stop s') : s = s' := by
  have hexclusive (hend : stop = source.length) : ¬ Unreadable source stop := by
    rintro ⟨⟨c, hc, -⟩, -⟩
    rw [hend, List.getElem?_eq_none (Nat.le_refl _)] at hc
    cases hc
  cases h with
  | eof h =>
      cases h' with
      | eof => rfl
      | fault h' => exact absurd h' (hexclusive h)
  | fault h he =>
      cases h' with
      | eof h' => exact absurd h (hexclusive h')
      | fault _ he' => rw [he.unique he']

theorem munched_of_read {position width : Nat} {rest : List Char} {t : Token} (hsource : source.drop position = c :: rest)
    (hread : Token.read previous position c rest = .ok (t, width)) :
    ∃ chars more, rest = chars ++ more ∧ width = chars.length ∧
      Lexeme.Munched source previous ⟨⟨t, position⟩, c :: chars⟩ := by
  obtain ⟨chars, more, rfl, rfl, hspelled⟩ := Token.spelled_of_read hread
  refine ⟨chars, more, rfl, rfl, ⟨more, hsource.symm⟩, hspelled, ?_⟩
  rintro longer ⟨more', hlonger⟩ previous' t' hlong
  obtain ⟨c', rest', u, width, heq, -, hread', hle, -⟩ := hlong.readsAtLeast previous position more'
  rw [hlonger, hsource] at heq
  cases heq
  cases hread.symm.trans hread'
  exact hle

theorem unreadable_of_read {position : Nat} {rest : List Char} {e : SyntaxError}
    (hsource : source.drop position = c :: rest) (hblank : Text.isBlank c = false)
    (hread : Token.read previous position c rest = .error e) :
    Unreadable source position ∧ Faults source position e := by
  have hc : source[position]? = some c := by rw [← List.head?_drop, hsource]; rfl
  refine ⟨⟨⟨c, hc, hblank⟩, ?_⟩, ?_⟩
  · rintro chars ⟨more, hmore⟩ previous' t hspelled
    obtain ⟨c', rest', u, width, heq, -, hread', -⟩ := hspelled.readsAtLeast previous position more
    rw [hmore, hsource] at heq
    cases heq
    cases hread.symm.trans hread'
  · rw [Token.error_of_read hread]
    split
    · next hpoint => exact .malformed (hpoint ▸ hc)
    · next hpoint => exact .unexpected hc hpoint

theorem exists_cuts (previous : Option Token) (position : Nat) (cs : List Char) (hcs : source.drop position = cs)
    (hle : position ≤ source.length) :
    ∃ ls stop last, ofChars previous position cs = last.after (ls.map Lexeme.toLocated) ∧
      Cuts source previous position stop ls ∧ Finishes source stop last := by
  fun_induction ofChars previous position cs with
  | case1 previous position =>
      have hend : position = source.length := by
        have hlength := congrArg List.length hcs
        simp only [List.length_drop, List.length_nil] at hlength
        omega
      exact ⟨[], position, _, rfl, Cuts.nil_iff.2 ⟨Nat.le_refl _, hle, by omega⟩, .eof hend⟩
  | case2 previous position c rest hblank ih =>
      have hc : source[position]? = some c := by rw [← List.head?_drop, hcs]; rfl
      have hlt := (List.getElem?_eq_some_iff.1 hc).1
      have hrest : source.drop (position + 1) = rest := by rw [← List.tail_drop, hcs]; rfl
      obtain ⟨ls, stop, last, heq, hcuts, hlast⟩ := ih hrest hlt
      exact ⟨ls, stop, last, heq, hcuts.skip hc hblank, hlast⟩
  | case3 previous position c rest hblank e hread =>
      obtain ⟨hunreadable, hfaults⟩ := unreadable_of_read hcs (by simpa using hblank) hread
      exact ⟨[], position, _, rfl, Cuts.nil_iff.2 ⟨Nat.le_refl _, hle, by omega⟩, .fault hunreadable hfaults⟩
  | case4 previous position c rest hblank t width hread later ih =>
      obtain ⟨chars, more, rfl, rfl, hmunched⟩ := munched_of_read hcs hread
      have hstop : position + 1 + chars.length = Lexeme.stop ⟨⟨t, position⟩, c :: chars⟩ := by
        simp only [Lexeme.stop, List.length_cons]
        omega
      have hrest : source.drop (position + 1 + chars.length) = more := by
        rw [← List.drop_drop, ← List.tail_drop, hcs]
        exact List.drop_left
      rw [List.drop_left] at ih
      obtain ⟨ls, stop, last, heq, hcuts, hlast⟩ := ih hrest (hstop ▸ hmunched.stop_le)
      refine ⟨⟨⟨t, position⟩, c :: chars⟩ :: ls, stop, last, ?_, Cuts.cons_iff.2 ⟨?_, hmunched, hstop ▸ hcuts⟩, hlast⟩
      · simp only [later, List.drop_left, heq]
        rfl
      · exact Cuts.nil_iff.2 ⟨Nat.le_refl _, hle, by simp only []; omega⟩

theorem ofString_of_cuts {source : String} {last : Scan} (hcuts : Cuts source.toList none 0 stop ls)
    (hlast : Finishes source.toList stop last) : ofString source = last.after (ls.map Lexeme.toLocated) := by
  obtain ⟨ls', stop', last', heq, hcuts', hlast'⟩ := exists_cuts none 0 source.toList rfl (Nat.zero_le _)
  obtain ⟨rfl, rfl⟩ := hcuts.unique hcuts' hlast.scanEnds hlast'.scanEnds
  rw [ofString, heq, hlast.unique hlast']

theorem exists_cuts_of_fault_eq_none {source : String} (h : (ofString source).fault = none) :
    ∃ ls, Cuts source.toList none 0 source.length ls ∧
      (ofString source).tokens = ls.map Lexeme.toLocated ++ [⟨.eof, source.length⟩] := by
  obtain ⟨ls, stop, last, heq, hcuts, hlast⟩ := exists_cuts none 0 source.toList rfl (Nat.zero_le _)
  have hscan : ofString source = last.after (ls.map Lexeme.toLocated) := heq
  rw [hscan] at h ⊢
  cases hlast with
  | eof hend =>
      obtain rfl : stop = source.length := hend.trans String.length_toList
      exact ⟨ls, hcuts, rfl⟩
  | fault => cases h

theorem exists_cuts_of_fault_eq_some {source : String} {e : SyntaxError} (h : (ofString source).fault = some e) :
    ∃ ls position, Cuts source.toList none 0 position ls ∧ Unreadable source.toList position ∧
      Faults source.toList position e ∧ (ofString source).tokens = ls.map Lexeme.toLocated := by
  obtain ⟨ls, stop, last, heq, hcuts, hlast⟩ := exists_cuts none 0 source.toList rfl (Nat.zero_le _)
  have hscan : ofString source = last.after (ls.map Lexeme.toLocated) := heq
  rw [hscan] at h ⊢
  cases hlast with
  | eof => cases h
  | fault hunreadable hfaults =>
      cases h
      exact ⟨ls, stop, hcuts, hunreadable, hfaults, List.append_nil _⟩

/-- A text is scanned by maximal munch. Its tokens, the end apart, are those of the one way to cut the whole text
into lexemes and blanks, and the end is behind its last character. If there is no such way, the tokens are
those of the text in front of the first character that is no blank and where no token can be read, and the
error is at this character. -/
theorem ofString_maximal_munch (source : String) :
    (∀ tokens, ofString source = ⟨tokens, none⟩ ↔
      ∃ ls, Cuts source.toList none 0 source.length ls ∧
        tokens = ls.map Lexeme.toLocated ++ [⟨.eof, source.length⟩]) ∧
    ∀ tokens error, ofString source = ⟨tokens, some error⟩ ↔
      ∃ ls position, Cuts source.toList none 0 position ls ∧ Unreadable source.toList position ∧
        Faults source.toList position error ∧ tokens = ls.map Lexeme.toLocated := by
  refine ⟨fun tokens => ⟨fun h => ?_, ?_⟩, fun tokens error => ⟨fun h => ?_, ?_⟩⟩
  · obtain ⟨ls, hcuts, htokens⟩ := exists_cuts_of_fault_eq_none (congrArg Scan.fault h)
    exact ⟨ls, hcuts, (congrArg Scan.tokens h).symm.trans htokens⟩
  · rintro ⟨ls, hcuts, rfl⟩
    exact ofString_of_cuts hcuts (.eof String.length_toList.symm)
  · obtain ⟨ls, position, hcuts, hunreadable, hfaults, htokens⟩ := exists_cuts_of_fault_eq_some (congrArg Scan.fault h)
    exact ⟨ls, position, hcuts, hunreadable, hfaults, (congrArg Scan.tokens h).symm.trans htokens⟩
  · rintro ⟨ls, position, hcuts, hunreadable, hfaults, rfl⟩
    have hscan := ofString_of_cuts hcuts (.fault hunreadable hfaults)
    rwa [Scan.after, List.append_nil] at hscan

end Scan

end FlowShader
