import Scad.Proofs.Render.Fused
import Scad.Proofs.Render.Written

/-! Calls: the text of one is a passage even if its parts run together, unless a word comes about
that a file follows. -/
namespace Scad

open List (Forall₂)
open Grammar (TextsScanned)
open Lexeme (Delimited Closed Meets)
open Passage

/-! ### Suffixes -/

theorem writes_member {i : Info} {m : String} (hm : IsTextOf .identifier m)
    (hd : Node.startsPlain ⟨i, .memberSuffix m⟩) :
    Node.Writes ⟨i, .memberSuffix m⟩ (join [sign .dot, name m hm]) := by
  have hmeets := meets_name hm fun c hc => by simpa [Node.startsPlain, Node.form, hc] using hd
  refine ⟨?_, fun hcs _ => ?_, (Begins.sign (by decide)).append _, fun hmore => ?_⟩
  · exact ok_text (by simp [join, Symbol.text])
  · simp [join, hmeets, hcs]
  · simp [join, hmore, Parse.startsGenerator]

/-- How the text of a suffix begins. -/
theorem suffix_begins {s : Node} {text : String} (h : s.render = .ok text) (hk : s.kind.isSuffix) :
    ∃ c cs, text.toList = c :: cs ∧ Lexeme.delimits c ∧ (c = '.' ↔ s.kind = .memberSuffix) := by
  obtain ⟨i, f⟩ := s
  cases f with
  | callSuffix as =>
      rw [Node.render] at h
      cases has : renderList as with
      | error => rw [has] at h; cases h
      | ok texts =>
          rw [has] at h
          rw [← Except.ok.inj h]
          exact ⟨'(', _, by simp; rfl, by decide, by simp [Node.kind, Node.form, Form.kind]⟩
  | indexSuffix e =>
      rw [Node.render] at h
      cases he : e.render with
      | error => rw [he] at h; cases h
      | ok text =>
          rw [he] at h
          rw [← Except.ok.inj h]
          exact ⟨'[', _, by simp; rfl, by decide, by simp [Node.kind, Node.form, Form.kind]⟩
  | memberSuffix m =>
      rw [← Except.ok.inj h]
      exact ⟨'.', m.toList, by simp, by decide, iff_of_true rfl rfl⟩
  | _ => cases hk

theorem renderList_cons {n : Node} {ns : List Node} {texts : List String} :
    renderList (n :: ns) = .ok texts ↔
      ∃ text more, n.render = .ok text ∧ renderList ns = .ok more ∧ texts = text :: more := by
  rw [renderList]
  constructor
  · intro h
    cases hn : n.render with
    | error f => rw [hn] at h; cases h
    | ok text =>
        cases hns : renderList ns with
        | error f => rw [hn, hns] at h; cases h
        | ok more =>
            rw [hn, hns] at h
            exact ⟨text, more, rfl, rfl, (Except.ok.inj h).symm⟩
  · rintro ⟨text, more, hn, hns, rfl⟩
    rw [hn, hns]
    rfl

/-- How the text of suffixes begins, before what ends a word. -/
theorem suffixes_begin {ss : List Node} {texts : List String} (h : renderList ss = .ok texts)
    (hk : ∀ s ∈ ss, s.kind.isSuffix) {cs : List Char} (hcs : Closed cs) :
    Delimited ((String.join texts).toList ++ cs) ∧
    (((String.join texts).toList ++ cs).head? = some '.' ↔
      ss.head?.any (·.kind = .memberSuffix)) := by
  cases ss with
  | nil =>
      cases h
      exact ⟨hcs.delimited, iff_of_false hcs.point nofun⟩
  | cons s ss =>
      obtain ⟨text, more, hs, -, rfl⟩ := renderList_cons.1 h
      obtain ⟨c, ds, htext, hc, hmember⟩ := suffix_begins hs (hk s (List.mem_cons_self ..))
      rw [String.join_cons, String.toList_append, htext]
      exact ⟨delimited_cons.2 hc, by simp [hmember]⟩

theorem Node.Writes.suffix {s : Node} {p : Passage} (h : s.Writes p) (hk : s.kind.isSuffix) :
    s.render = .ok p.text ∧ s.meetsPoint := by
  obtain ⟨i, f⟩ := s
  cases f with
  | callSuffix | indexSuffix | memberSuffix => exact ⟨h.render nofun, rfl⟩
  | _ => cases hk

theorem suffixes_text {ss : List Node} {ps : List Passage} (h : Forall₂ Node.Writes ss ps)
    (hk : ∀ s ∈ ss, s.kind.isSuffix) : renderList ss = .ok (ps.map text) := by
  apply list_text h
  intro s hs hassignment
  have hsuffix := hk s hs
  rw [hassignment] at hsuffix
  cases hsuffix

theorem suffixes_stand {ss : List Node} {ps : List Passage} (h : Forall₂ Node.Writes ss ps)
    (hk : ∀ s ∈ ss, s.kind.isSuffix) : Adjacent false ps := by
  induction h with
  | nil => exact .nil
  | @cons s p ss ps hs hss ih =>
      obtain ⟨hks, hk⟩ := List.forall_mem_cons.1 hk
      obtain ⟨-, hmeets⟩ := hs.suffix hks
      refine ⟨fun {cs} hcs => ⟨?_, (ih hk).fit hcs⟩, fun {more} hmore _ => ?_⟩
      · rw [textAll_eq]
        exact hs.follow (suffixes_begin (suffixes_text hss hk) hk hcs).1 fun _ => hmeets
      · rw [foundAll_cons, List.append_assoc]
        exact hs.within.2 ((ih hk).alone hmore)

/-! ### Calls -/

/-- Whether the name of a member, if the node is one, ends in a word that a file follows. -/
def Node.namesFile (n : Node) : Bool :=
  match n.form with
  | .memberSuffix m =>
      [Inclusion.everything, .definitions].any fun i => i.text.toList.isSuffixOf m.toList
  | _ => false

/-- Whether the text of a call is scanned without regard to what is behind it: its parts stay apart,
or no member in it has a name that ends in a word that a file follows. -/
def Node.isContained (n : Node) : Bool :=
  match n.form with
  | .call _ ss => n.isApart || ss.all (!·.namesFile)
  | _ => true

section Calls

variable {i : Info} {t : Node} {ss : List Node} {p : Passage}

theorem writes_call {ps : List Passage} (ht : t.Writes p) (h : Forall₂ Node.Writes ss ps)
    (hkt : 9 ≤ t.kind.tightness) (hks : ∀ s ∈ ss, s.kind.isSuffix)
    (hapart : Node.isApart ⟨i, .call t ss⟩) : Node.Writes ⟨i, .call t ss⟩ (join (p :: ps)) := by
  have hkt := Kind.isExpression_of_tight (Nat.lt_of_lt_of_le (by decide) hkt)
  have htexts := suffixes_text h hks
  simp only [Node.isApart, Node.form, Bool.and_eq_true, Bool.or_eq_true, Bool.not_eq_true']
    at hapart
  refine .of_cons rfl ht.begins (fun {cs} hcs => ?_) (fun hmore => ?_) (suffixes_stand h hks) ?_
  · obtain ⟨hdelimited, hpoint⟩ := suffixes_begin htexts hks hcs
    rw [textAll_eq]
    exact ht.follow hdelimited fun hhead => hapart.1.resolve_right fun hfirst => by
      simp [hpoint.1 hhead] at hfirst
  · exact (ht.enclosed (Kind.generates_of_isExpression hkt)).2 hmore
  · change Node.render _ = _
    rw [Node.render, ht.expression hkt, htexts]
    exact congrArg Except.ok (by rw [textAll_cons, textAll_eq])

/-- Behind digits only, no point may stand. -/
theorem digits_of_meetsPoint (ht : t.Writes p) (hk : 9 ≤ t.kind.tightness)
    (hmeets : t.meetsPoint = false) :
    Lexeme.Digits p.text.toList := by
  obtain ⟨j, f⟩ := t
  cases f with
  | number v =>
      have hbare : v.isBare := by simpa [Node.meetsPoint, Node.form] using hmeets
      have htext := ht.expression rfl
      rw [Node.render, renderNumber] at htext
      rw [Number.isBare] at hbare
      cases hv : v.render with
      | error => rw [hv] at htext; cases htext
      | ok text =>
          rw [hv] at htext hbare
          obtain rfl := Except.ok.inj htext
          exact List.all_eq_true.1 hbare
  | _ => simp [Node.meetsPoint, Node.form, hk] at hmeets

theorem Fused.digits {ds : List Char} (h : Lexeme.Digits ds) : Fused ds := by
  apply Fused.word fun d hd => Lexeme.isWordChar_of_isAsciiDigit (h d hd)
  intro i hi
  have hlast : 'e' ∈ ds := hi.subset (by cases i <;> decide)
  exact absurd (h _ hlast) (by decide)

theorem Fused.member_of_namesFile {m : String} (hm : IsTextOf .identifier m)
    (h : Node.namesFile ⟨i, .memberSuffix m⟩ = false) : Fused ('.' :: m.toList) := by
  apply Fused.member hm.1
  intro j hj
  have hnames : Node.namesFile ⟨i, .memberSuffix m⟩ := by
    rw [Node.namesFile, Node.form]
    cases j <;> simp [List.isSuffixOf_iff_suffix, hj]
  rw [h] at hnames
  cases hnames

/-- What is known of a suffix if the text of its call may be words and points that run together. -/
structure Node.Suffixes (s : Node) : Prop where
  suffix : s.kind.isSuffix
  textsScanned : TextsScanned s.form
  names : s.namesFile = false
  writes : s.kind ≠ .memberSuffix → ∃ p, s.Writes p

/-- Suffixes behind words and points: those that go on with them, and the others. -/
theorem written_suffixes (h : ∀ s ∈ ss, s.Suffixes) {cs : List Char} (hcs : Fused cs) :
    ∃ texts ds p ps, renderList ss = .ok texts ∧ Fused.Written (cs ++ ds) p ∧
      (String.join texts).toList = ds ++ (textAll ps).toList ∧ Adjacent false ps ∧
      ∀ {es}, Closed es → Closed ((textAll ps).toList ++ es) := by
  induction ss generalizing cs with
  | nil =>
      obtain ⟨p, hp⟩ := hcs.written
      exact ⟨[], [], p, [], rfl, by rwa [List.append_nil], rfl, .nil, id⟩
  | cons s ss ih =>
      obtain ⟨hs, hss⟩ := List.forall_mem_cons.1 h
      have hks : ∀ s ∈ ss, s.kind.isSuffix := fun s hs => (hss s hs).suffix
      by_cases hk : s.kind = .memberSuffix
      · obtain ⟨j, f⟩ := s
        cases f with
        | memberSuffix m =>
            have hmember := hcs.append (Fused.member_of_namesFile hs.textsScanned hs.names)
              fun c hc => by cases hc; decide
            obtain ⟨texts, ds, p, ps, htexts, hp, hjoin, hstands⟩ := ih hss hmember
            refine ⟨("." ++ m) :: texts, '.' :: m.toList ++ ds, p, ps,
              renderList_cons.2 ⟨_, _, rfl, htexts, rfl⟩, ?_, ?_, hstands⟩
            · rwa [← List.append_assoc]
            · rw [String.join_cons, String.toList_append, hjoin]
              simp
        | _ => cases hk
      · obtain ⟨q, hq⟩ := hs.writes hk
        obtain ⟨hrender, hmeets⟩ := hq.suffix hs.suffix
        obtain ⟨c, rest, htext, hc, hpoint⟩ := suffix_begins hrender hs.suffix
        obtain ⟨texts, ds, p, ps, htexts, hp, hjoin, hstands, hclosed⟩ := ih hss .nil
        obtain ⟨first, hfirst⟩ := hcs.written
        rw [List.nil_append] at hp
        refine ⟨q.text :: texts, [], first, q :: p :: ps,
          renderList_cons.2 ⟨_, _, hrender, htexts, rfl⟩, by rwa [List.append_nil], ?_,
          ⟨fun {es} hes => ⟨?_, ?_, hstands.fit hes⟩, fun {more} hmore _ => ?_⟩, fun {es} _ => ?_⟩
        · rw [String.join_cons, String.toList_append, hjoin]
          simp [hp.text]
        · have hbehind := (suffixes_begin htexts hks hes).1
          rw [hjoin, ← hp.text] at hbehind
          exact hq.follow (by simpa using hbehind) fun _ => hmeets
        · exact hp.closed (hclosed hes)
        · have hrest := hp.ungroups (hstands.alone hmore)
          simpa using hq.within.2 hrest
        · have hends : ends c := by
            have hother : c ≠ '.' := fun hdot => hk (hpoint.1 hdot)
            simp [ends, hc, hother]
          simp [htext, hends]

/-- A call is written in a passage even if its parts run together. -/
theorem written_fused (ht : t.Writes p) (hkt : 9 ≤ t.kind.tightness) (h : ∀ s ∈ ss, s.Suffixes) :
    ∃ q, Node.Writes ⟨i, .call t ss⟩ q := by
  have hkt' := Kind.isExpression_of_tight (Nat.lt_of_lt_of_le (by decide) hkt)
  have hks : ∀ s ∈ ss, s.kind.isSuffix := fun s hs => (h s hs).suffix
  cases hmeets : t.meetsPoint with
  | true =>
      obtain ⟨texts, ds, q, ps, htexts, hq, hjoin, hstands, hclosed⟩ := written_suffixes h .nil
      rw [List.nil_append] at hq
      rw [← hq.text] at hjoin
      have hbehind : Adjacent false (q :: ps) := by
        refine ⟨fun hcs => ⟨hq.closed (hclosed hcs), hstands.fit hcs⟩, fun hmore _ => ?_⟩
        simpa using hq.ungroups (hstands.alone hmore)
      refine ⟨_, .of_cons rfl ht.begins (fun hcs => ?_) (fun hmore => ?_) hbehind ?_⟩
      · have hclose := (suffixes_begin htexts hks hcs).1
        rw [hjoin] at hclose
        exact ht.follow (by simpa using hclose) fun _ => hmeets
      · exact (ht.enclosed (Kind.generates_of_isExpression hkt')).2 hmore
      · change Node.render _ = _
        rw [Node.render, ht.expression hkt', htexts]
        exact ok_text (by simp [hjoin])
  | false =>
      have hdigits := digits_of_meetsPoint ht hkt hmeets
      obtain ⟨texts, ds, q, ps, htexts, hq, hjoin, hstands, hclosed⟩ :=
        written_suffixes h (.digits hdigits)
      obtain ⟨c, cs, htext, hc⟩ := ht.begins
      have hfirst : q.text.toList = c :: (cs ++ ds) := by rw [hq.text, htext, List.cons_append]
      have hdigit : Numeral.isAsciiDigit c := hdigits c (by simp [htext])
      refine ⟨_, .of_cons rfl ⟨c, _, hfirst, hc⟩ (fun hcs => hq.closed (hclosed hcs))
        (fun hmore => ?_) hstands ?_⟩
      · exact hq.digit ⟨c, cs ++ ds, by rw [htext, List.cons_append], hdigit⟩ hmore
      · change Node.render _ = _
        rw [Node.render, ht.expression hkt', htexts]
        exact ok_text (by simp [hjoin, hq.text])

attribute [local simp] Form.children Form.fields Field.children

theorem written_call (hletters : ∀ s ∈ ss, TextsScanned s.form)
    (hcontained : Node.isContained ⟨i, .call t ss⟩) (hshape : (Form.call t ss).Shaped .proper)
    (h : (Form.call t ss).PartsWritten) :
    ∃ p, Node.Writes ⟨i, .call t ss⟩ p := by
  obtain ⟨hkt, -, hks⟩ := hshape
  obtain ⟨p, hp⟩ := h.expression (e := t) (by simp)
    (Kind.isExpression_of_tight (Nat.lt_of_lt_of_le (by decide) hkt))
  have hother : ∀ s ∈ ss, s.kind ≠ .memberSuffix → ∃ q, s.Writes q := by
    intro s hs hk
    apply h s (by simp [hs])
    have hsuffix := hks s hs
    cases hkind : s.kind with
    | callSuffix | indexSuffix => rfl
    | memberSuffix => exact absurd hkind hk
    | _ => rw [hkind] at hsuffix; cases hsuffix
  rcases Bool.or_eq_true_iff.1 hcontained with hapart | hnames
  · have hplain : ∀ s ∈ ss, s.startsPlain := List.all_eq_true.1 (Bool.and_eq_true_iff.1 hapart).2
    have hss : ∀ s ∈ ss, ∃ q, s.Writes q := by
      intro s hs
      by_cases hk : s.kind = .memberSuffix
      · obtain ⟨j, f⟩ := s
        cases f with
        | memberSuffix m => exact ⟨_, writes_member (hletters _ hs) (hplain _ hs)⟩
        | _ => cases hk
      · exact hother s hs hk
    obtain ⟨ps, hps⟩ := exists_forall₂ hss
    exact ⟨_, writes_call hp hps hkt hks hapart⟩
  · apply written_fused hp hkt
    intro s hs
    exact ⟨hks s hs, hletters s hs, by simpa using List.all_eq_true.1 hnames s hs, hother s hs⟩

end Calls

end Scad
