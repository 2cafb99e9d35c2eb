import HopDns.ForStd.DnsName
import HopDns.Native.Reply

/-!
# Names, as text and on the wire

The readers and the writer of names, against the names of `ForStd.DnsName`.

## Key results

- `skipPlainName_eq_some`: the query reader accepts exactly the names a message may hold
- `nameText_wire`: a name of visible bytes reads as its labels in lower case
- `putName_run_ok`: the writer writes exactly the names whose text splits into legal labels
-/

namespace HopDns

open ForStd

/-! ## The end of a name -/

/-- A label stands at a place when its length, its bytes and the rest do. -/
theorem hasAt_wire_cons {msg l : List UInt8} {labels : List (List UInt8)} {pos : Nat} :
    msg.HasAt pos (Dns.wire (l :: labels)) ↔
      msg[pos]? = some (UInt8.ofNat l.length) ∧ msg.HasAt (pos + 1) l ∧
        msg.HasAt (pos + 1 + l.length) (Dns.wire labels) := by
  rw [Dns.wire_cons, Dns.labelBytes, List.cons_append, List.hasAt_cons, List.hasAt_append]

theorem hasAt_wire_nil {msg : List UInt8} {pos : Nat} :
    msg.HasAt pos (Dns.wire []) ↔ msg[pos]? = some 0 := by
  simp [List.hasAt_cons]

/-- A byte that is zero as a number. -/
theorem eq_zero_of_toNat {b : UInt8} (h : b.toNat = 0) : b = 0 := UInt8.toNat_inj.mp h

/-- The loop finds the end of the legal labels that stand at its place. -/
theorem skipPlainNameFrom_wire {msg : List UInt8} {start pos : Nat} {labels : List (List UInt8)}
    (h : Dns.Legal labels) (hat : msg.HasAt pos (Dns.wire labels)) :
    skipPlainNameFrom msg start pos =
      if pos + (Dns.wire labels).length - start ≤ NAME_MAX
      then some (pos + (Dns.wire labels).length) else none := by
  -- induction on the labels, the place moving behind each of them
  induction labels generalizing pos with
  | nil =>
    rw [hasAt_wire_nil] at hat
    rw [skipPlainNameFrom_some hat, if_pos UInt8.toNat_zero]
    rfl
  | cons l labels ih =>
    obtain ⟨hb, -, hrest⟩ := hasAt_wire_cons.mp hat
    -- the length byte is the length of the label, so the reader jumps to the next one
    have hl := h.head
    have hlen := hl.toNat_ofNat
    unfold Dns.LegalLabel at hl
    rw [skipPlainNameFrom_some hb, hlen, if_neg (by omega), if_neg (by unfold LABEL_MAX; omega),
      ih h.tail hrest, Dns.length_wire_cons,
      show pos + 1 + l.length + (Dns.wire labels).length =
        pos + (l.length + 1 + (Dns.wire labels).length) by omega]

/-- Where the loop finds an end, legal labels stand. -/
private theorem exists_of_skipPlainNameFrom {msg : List UInt8} {start pos e : Nat}
    (h : skipPlainNameFrom msg start pos = some e) :
    ∃ labels, Dns.Legal labels ∧ msg.HasAt pos (Dns.wire labels) ∧
      e = pos + (Dns.wire labels).length ∧ e - start ≤ NAME_MAX := by
  -- induction on the calls of the reader: the empty label ends it, a label goes on
  induction pos using skipPlainNameFrom.induct msg start with
  -- the message ends within the name
  | case1 pos hnone =>
    rw [skipPlainNameFrom_none hnone] at h
    exact nomatch h
  -- the empty label, with a name that is not too long
  | case2 pos b hb hzero hmax =>
    rw [skipPlainNameFrom_some hb, if_pos hzero, if_pos hmax] at h
    obtain rfl := Option.some.inj h
    refine ⟨[], Dns.legal_nil, ?_, rfl, hmax⟩
    rw [hasAt_wire_nil, hb, eq_zero_of_toNat hzero]
  | case3 pos b hb hzero hmax =>
    rw [skipPlainNameFrom_some hb, if_pos hzero, if_neg hmax] at h
    exact nomatch h
  -- a pointer
  | case4 pos b hb hzero hbig =>
    rw [skipPlainNameFrom_some hb, if_neg hzero, if_pos hbig] at h
    exact nomatch h
  | case5 pos b hb hzero hbig ih =>
    rw [skipPlainNameFrom_some hb, if_neg hzero, if_neg hbig] at h
    obtain ⟨labels, hlegal, hat, rfl, hmax⟩ := ih h
    -- the label is what stands between its length and the rest
    have hlt := hat.lt (List.ne_nil_of_length_pos (Dns.length_wire_pos labels))
    have hlen : ((msg.drop (pos + 1)).take b.toNat).length = b.toNat := by
      rw [List.length_take, List.length_drop]
      omega
    have hlabel : Dns.LegalLabel ((msg.drop (pos + 1)).take b.toNat) := by
      unfold Dns.LegalLabel
      unfold LABEL_MAX at hbig
      omega
    refine ⟨(msg.drop (pos + 1)).take b.toNat :: labels, hlegal.cons hlabel, ?_, ?_, hmax⟩
    · rw [hasAt_wire_cons, hlen, hb, UInt8.ofNat_toNat]
      exact ⟨rfl, List.take_prefix _ _, hat⟩
    · rw [Dns.length_wire_cons, hlen]
      omega

/-- The query reader accepts exactly the names a message may hold. -/
theorem skipPlainName_eq_some {msg : List UInt8} {pos e : Nat} :
    skipPlainName msg pos = some e ↔
      ∃ n : Dns.Name, msg.HasAt pos n.wire ∧ e = pos + n.wire.length := by
  unfold skipPlainName
  constructor
  · intro h
    obtain ⟨labels, hlegal, hat, rfl, hmax⟩ := exists_of_skipPlainNameFrom h
    exact ⟨⟨labels, hlegal, by unfold NAME_MAX at hmax; omega⟩, hat, rfl⟩
  · intro h'
    obtain ⟨n, hat, rfl⟩ := h'
    have hfits := n.length_wire_le
    rw [skipPlainNameFrom_wire n.legal hat, if_pos (by unfold NAME_MAX Dns.Name.wire at *; omega)]
    rfl

/-! ## The text of a name -/

/-- A byte a host name may have in a label. -/
def Visible (b : UInt8) : Prop := (0x21 ≤ b ∧ b ≤ 0x7E) ∧ b ≠ dot

instance (b : UInt8) : Decidable (Visible b) := inferInstanceAs (Decidable (_ ∧ _))

/-- A label of such bytes. -/
def VisibleLabel (l : Str) : Prop := ∀ b ∈ l, Visible b

instance (l : Str) : Decidable (VisibleLabel l) := inferInstanceAs (Decidable (∀ b ∈ l, Visible b))

private theorem visibleLabel_cons {b : UInt8} {l : Str} :
    VisibleLabel (b :: l) ↔ Visible b ∧ VisibleLabel l := List.forall_mem_cons

/-- Folding the case makes no byte visible, and none invisible. -/
private theorem visible_toAsciiLowercase (b : UInt8) : Visible (toAsciiLowercase b) ↔ Visible b :=
    by
  unfold Visible
  rw [Ne, Ne, toAsciiLowercase_eq_dot]
  refine and_congr_left fun _ => ?_
  unfold toAsciiLowercase
  split
  · rename_i hupper
    simp only [UInt8.le_iff_toNat_le, UInt8.toNat_add, UInt8.reduceToNat] at hupper ⊢
    omega
  · exact Iff.rfl

theorem visibleLabel_lowercase (l : Str) : VisibleLabel (lowercase l) ↔ VisibleLabel l := by
  simp only [VisibleLabel, lowercase, List.forall_mem_map, visible_toAsciiLowercase]

/-- Labels of such bytes. -/
def VisibleLabels (labels : List Str) : Prop := ∀ l ∈ labels, VisibleLabel l

instance (labels : List Str) : Decidable (VisibleLabels labels) :=
  inferInstanceAs (Decidable (∀ l ∈ labels, VisibleLabel l))

theorem visibleLabels_cons {l : Str} {labels : List Str} :
    VisibleLabels (l :: labels) ↔ VisibleLabel l ∧ VisibleLabels labels := List.forall_mem_cons

/-- The labels in lower case with dots between them. -/
def text (labels : List Str) : Str := [dot].intercalate (labels.map lowercase)

@[simp] theorem text_nil : text [] = [] := rfl

/-- The first label stands at the front of the text, and a dot before every other one. -/
theorem text_cons (l : Str) (labels : List Str) :
    text (l :: labels) = lowercase l ++ labels.flatMap fun l => dot :: lowercase l := by
  induction labels generalizing l with
  | nil => simp [text]
  | cons l' labels ih =>
    have hne : (l' :: labels).map lowercase ≠ [] := by simp
    rw [text, List.map_cons, List.intercalate_cons dot _ hne, List.flatMap_cons]
    exact congrArg (fun t => lowercase l ++ dot :: t) (ih l')

/-- A dot stands between the texts of two names. -/
theorem text_append {labels labels' : List Str} (h : labels ≠ []) (h' : labels' ≠ []) :
    text (labels ++ labels') = text labels ++ dot :: text labels' := by
  rw [text, List.map_append, List.intercalate_append dot (by simpa) (by simpa)]
  rfl

/-- A label that fits is pushed byte by byte, in lower case, or one of its bytes is not shown. -/
private theorem pushLabelByte_foldlM {l t : Str} (h : t.length + l.length ≤ NAME_MAX) :
    l.foldlM pushLabelByte t = if VisibleLabel l then some (t ++ lowercase l) else none := by
  -- induction on the bytes of the label, the text growing by one at a time
  induction l generalizing t with
  | nil => simp [VisibleLabel]
  | cons b l ih =>
    rw [List.length_cons] at h
    rw [List.foldlM_cons, pushLabelByte]
    by_cases hb : Visible b
    -- the byte is kept, in lower case
    · have hnot : ¬(¬(0x21 ≤ b ∧ b ≤ 0x7E) ∨ b = dot) := by
        intro hex
        obtain h' | h' := hex
        · exact h' hb.1
        · exact hb.2 h'
      rw [if_neg hnot, pushText, if_pos (by omega), Option.bind_eq_bind, Option.bind_some,
        ih (by rw [List.length_append, List.length_singleton]; omega)]
      by_cases hl : VisibleLabel l
      · rw [if_pos hl, if_pos (visibleLabel_cons.mpr ⟨hb, hl⟩), List.append_assoc]
        rfl
      · rw [if_neg hl, if_neg fun h' => hl (visibleLabel_cons.mp h').2]
    -- the byte is not one of a host name, and the whole name goes
    · have hor : ¬(0x21 ≤ b ∧ b ≤ 0x7E) ∨ b = dot := by
        by_cases hr : 0x21 ≤ b ∧ b ≤ 0x7E
        · exact .inr (Decidable.not_not.mp fun hd => hb ⟨hr, hd⟩)
        · exact .inl hr
      rw [if_pos hor, if_neg fun h' => hb (visibleLabel_cons.mp h').1]
      rfl

/-- One turn of the loop of `name_text`, at a label that stands at its place. -/
private theorem nameTextFrom_label {wire l t : Str} {labels : List Str} {pos : Nat}
    (hl : Dns.LegalLabel l) (hat : wire.HasAt pos (Dns.wire (l :: labels)))
    (hfits : t.length + 1 + l.length ≤ NAME_MAX) :
    nameTextFrom wire pos t =
      if VisibleLabel l then
        nameTextFrom wire (pos + 1 + l.length)
          ((if t.length > 0 then t ++ [dot] else t) ++ lowercase l)
      else none := by
  obtain ⟨hb, hlabel, hrest⟩ := hasAt_wire_cons.mp hat
  have hlen := hl.toNat_ofNat
  have hlt := hrest.lt (List.ne_nil_of_length_pos (Dns.length_wire_pos labels))
  -- the label is there, and there is room for it with its dot
  have hrange : wire.getRange? (pos + 1) (pos + 1 + l.length) = some l :=
    List.getRange?_eq_some_iff.mpr ⟨rfl, by omega, hlabel⟩
  have hpush : pushSeparator t = some (if t.length > 0 then t ++ [dot] else t) := by
    unfold pushSeparator
    split
    · rw [pushText, if_pos (by unfold Dns.LegalLabel at hl; omega)]
    · rfl
  have hshort : (if t.length > 0 then t ++ [dot] else t).length + l.length ≤ NAME_MAX := by
    split
    · rw [List.length_append, List.length_singleton]; omega
    · omega
  rw [nameTextFrom_some hb, hlen, if_neg (by unfold Dns.LegalLabel at hl; omega)]
  simp only [hrange, hpush, Option.bind_eq_bind, Option.bind_some, pushLabelByte_foldlM hshort]
  split <;> rfl

/-- The loop, after a first label. -/
private theorem nameTextFrom_wire {wire t : Str} {labels : List Str} {pos : Nat}
    (h : Dns.Legal labels) (ht : t ≠ []) (hat : wire.HasAt pos (Dns.wire labels))
    (hfits : t.length + (Dns.wire labels).length ≤ NAME_MAX) :
    nameTextFrom wire pos t =
      if VisibleLabels labels then some (t ++ labels.flatMap fun l => dot :: lowercase l)
      else none := by
  -- induction on the labels, each with its dot before it
  induction labels generalizing pos t with
  | nil =>
    rw [hasAt_wire_nil] at hat
    rw [nameTextFrom_some hat]
    simp [VisibleLabels]
  | cons l labels ih =>
    rw [Dns.length_wire_cons] at hfits
    have hpos : t.length > 0 := List.length_pos_iff.mpr ht
    rw [nameTextFrom_label h.head hat (by omega), if_pos hpos]
    -- what the text has grown by is less than the label takes on the wire
    have hlen : (t ++ [dot] ++ lowercase l).length = t.length + 1 + l.length := by
      rw [List.length_append, List.length_append, length_lowercase, List.length_singleton]
    by_cases hl : VisibleLabel l
    · rw [if_pos hl, ih h.tail (List.ne_nil_of_length_pos (by omega)) (hasAt_wire_cons.mp hat).2.2
        (by omega)]
      by_cases hls : VisibleLabels labels
      · rw [if_pos hls, if_pos (visibleLabels_cons.mpr ⟨hl, hls⟩), List.flatMap_cons]
        simp only [List.append_assoc, List.cons_append, List.nil_append]
      · rw [if_neg hls, if_neg fun h' => hls (visibleLabels_cons.mp h').2]
    · rw [if_neg hl, if_neg fun h' => hl (visibleLabels_cons.mp h').1]

/-- A name of visible bytes reads as its labels in lower case, with dots between them; any
    other name has no text. -/
theorem nameText_wire (n : Dns.Name) :
    nameText n.wire = if VisibleLabels n.labels then some (text n.labels) else none := by
  obtain ⟨labels, h, hfits⟩ := n
  have hat : (Dns.wire labels).HasAt 0 (Dns.wire labels) := List.prefix_rfl
  show nameTextFrom (Dns.wire labels) 0 [] = _
  cases labels with
  | nil =>
    rw [nameTextFrom_some rfl]
    simp [VisibleLabels]
  | cons l labels =>
    rw [Dns.length_wire_cons] at hfits
    have hpos := Dns.length_wire_pos labels
    -- the first label has no dot before it
    rw [nameTextFrom_label h.head hat (by unfold NAME_MAX; rw [List.length_nil]; omega),
      if_neg (show ¬([] : Str).length > 0 by decide), List.nil_append]
    have hne : lowercase l ≠ [] := List.ne_nil_of_length_pos (by
      rw [length_lowercase]
      exact h.head.1)
    by_cases hl : VisibleLabel l
    · rw [if_pos hl, nameTextFrom_wire h.tail hne (hasAt_wire_cons.mp hat).2.2
        (by rw [length_lowercase]; unfold NAME_MAX; omega), text_cons]
      by_cases hls : VisibleLabels labels
      · rw [if_pos hls, if_pos (visibleLabels_cons.mpr ⟨hl, hls⟩)]
      · rw [if_neg hls, if_neg fun h' => hls (visibleLabels_cons.mp h').2]
    · rw [if_neg hl, if_neg fun h' => hl (visibleLabels_cons.mp h').1]

/-! ## Writing a name -/

/-- The name `put_name` writes for a text, if it writes one. -/
def encodeName (name : Str) : Option Dns.Name := Dns.Name.ofLabels? (nameLabels name)

/-- A text is encoded as the name of its labels, if there is such a name. -/
theorem encodeName_eq_some {name : Str} {n : Dns.Name} :
    encodeName name = some n ↔ n.labels = nameLabels name := Dns.Name.ofLabels?_eq_some

/-- A slice is put where it fits. -/
theorem putSlice_run_ok {pos : Nat} {xs out out' : List UInt8} :
    (putSlice pos xs).run out = (.ok (), out') ↔ out.setRange? pos xs = some out' := by
  rw [putSlice, Method.run_bind_ok _ (Method.run_get out)]
  cases h : out.setRange? pos xs with
  | none => simp [Method.run_bind]
  | some o => simp [Method.run_bind]

/-- The state after a write that fails is the state before. -/
private theorem putSlice_run_none {pos : Nat} {xs out : List UInt8}
    (h : out.setRange? pos xs = none) : (putSlice pos xs).run out = (.error .noRoom, out) := by
  rw [putSlice, Method.run_bind_ok _ (Method.run_get out), h]
  rfl

/-- A write, and then the rest. -/
theorem putSlice_bind_run_ok {α : Type} {pos : Nat} {xs out out' : List UInt8} {a : α}
    {x : Method Error (List UInt8) α} :
    (putSlice pos xs >>= fun _ => x).run out = (.ok a, out') ↔
      ∃ o, out.setRange? pos xs = some o ∧ x.run o = (.ok a, out') := by
  cases h : out.setRange? pos xs with
  | none => simp [Method.run_bind, putSlice_run_none h]
  | some o => simp [Method.run_bind, putSlice_run_ok.mpr h]

/-- The labels and the empty label are written when the labels are legal and there is room. -/
private theorem putLabels_run_ok {labels : List Str} {pos e : Nat} {out out' : List UInt8} :
    (putLabels pos labels >>= fun e => putSlice e [0] >>= fun _ => pure (e + 1)).run out =
        (.ok e, out') ↔
      Dns.Legal labels ∧ e = pos + (Dns.wire labels).length ∧
        out.setRange? pos (Dns.wire labels) = some out' := by
  -- induction on the labels: each is written behind what is there already
  induction labels generalizing pos out with
  | nil =>
    rw [putLabels, Method.run_bind_ok _ (Method.run_pure pos out), putSlice_bind_run_ok]
    simp only [Method.run_pure, Prod.mk.injEq, Except.ok.injEq, Dns.wire_nil]
    constructor
    · intro h'
      obtain ⟨o, ho, rfl, rfl⟩ := h'
      exact ⟨Dns.legal_nil, rfl, ho⟩
    · intro h'
      obtain ⟨-, rfl, ho⟩ := h'
      exact ⟨out', ho, rfl, rfl⟩
  | cons l labels ih =>
    rw [putLabels]
    by_cases hl : l.length = 0 ∨ l.length > LABEL_MAX
    -- an illegal label stops the writing, and such labels have no wire form
    · rw [if_pos hl, Method.run_bind_error _ (Method.run_throw _ _)]
      have hnot : ¬Dns.Legal (l :: labels) := fun h => by
        have := h.head
        unfold Dns.LegalLabel at this
        unfold LABEL_MAX at hl
        omega
      simp [hnot]
    · have hlabel : Dns.LegalLabel l := by
        unfold Dns.LegalLabel
        unfold LABEL_MAX at hl
        omega
      rw [if_neg hl, bind_assoc, ← Dns.labelBytes, putSlice_bind_run_ok]
      simp only [ih, Dns.wire_cons, List.setRange?_append, List.length_append,
        Dns.length_labelBytes, Option.bind_eq_some_iff]
      constructor
      · intro h'
        obtain ⟨o, ho, hlegal, rfl, hrest⟩ := h'
        -- the label is legal, and the rest is legal and written behind it
        exact ⟨hlegal.cons hlabel, by omega, o, ho, by rwa [← Nat.add_assoc, Nat.add_right_comm]⟩
      · intro h'
        obtain ⟨hlegal, rfl, o, ho, hrest⟩ := h'
        exact ⟨o, ho, hlegal.tail, by omega, by rwa [← Nat.add_assoc, Nat.add_right_comm] at hrest⟩

/-- The writer writes exactly the names whose text splits into legal labels, and that a
    message may hold. -/
theorem putName_run_ok {pos e : Nat} {name : Str} {out out' : List UInt8} :
    (putName pos name).run out = (.ok e, out') ↔
      ∃ n, encodeName name = some n ∧ e = pos + n.wire.length ∧
        out.setRange? pos n.wire = some out' := by
  -- the test of the length comes after everything was written
  have hsplit : putName pos name =
      (putLabels pos (nameLabels name) >>= fun e => putSlice e [0] >>= fun _ => pure (e + 1)) >>=
        fun e => if e - pos > NAME_MAX then Method.throw .badName else pure e := by
    simp only [putName, bind_assoc, pure_bind]
  rw [hsplit, Method.run_bind]
  rcases hrun : (putLabels pos (nameLabels name) >>= fun e =>
    putSlice e [0] >>= fun _ => pure (e + 1)).run out with ⟨_ | e', o⟩
  -- no labels were written, so the name has no wire form
  · simp only [reduceCtorEq, Prod.mk.injEq, false_and, false_iff]
    intro h
    obtain ⟨n, hn, -, ho⟩ := h
    rw [encodeName_eq_some] at hn
    have hrun' := putLabels_run_ok.mpr ⟨n.legal, rfl, ho⟩
    rw [hn, hrun] at hrun'
    exact nomatch hrun'
  · obtain ⟨hlegal, rfl, ho⟩ := putLabels_run_ok.mp hrun
    simp only
    -- the labels are legal, and the name is too long or it is not
    by_cases hmax : pos + (Dns.wire (nameLabels name)).length - pos > NAME_MAX
    · rw [if_pos hmax]
      simp only [Method.run_throw, reduceCtorEq, Prod.mk.injEq, false_and, false_iff]
      intro h
      obtain ⟨n, hn, -, -⟩ := h
      have hfits := n.fits
      rw [encodeName_eq_some.mp hn] at hfits
      unfold NAME_MAX at hmax
      omega
    · rw [if_neg hmax]
      simp only [Method.run_pure, Prod.mk.injEq, Except.ok.injEq]
      constructor
      · intro h
        obtain ⟨rfl, rfl⟩ := h
        refine ⟨⟨nameLabels name, hlegal, by unfold NAME_MAX at hmax; omega⟩, ?_, rfl, ho⟩
        exact encodeName_eq_some.mpr rfl
      · intro h
        obtain ⟨n, hn, rfl, ho'⟩ := h
        rw [Dns.Name.wire, encodeName_eq_some.mp hn] at ho' ⊢
        exact ⟨rfl, Option.some.inj (ho.symm.trans ho')⟩

end HopDns
