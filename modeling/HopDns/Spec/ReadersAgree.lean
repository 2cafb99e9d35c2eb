import HopDns.Spec.NameCorrect
import HopDns.Spec.ReadEnds

/-!
# The two readers of a name

`skip_plain_name` holds the bytes of a name on the wire against the limit of 255,
`read_name` the bytes of its text, with a dot behind each label. The text has one byte
fewer, for there is no empty label, and one more for each byte that is not ASCII.

## Key results

- `readName_labels`, `skipPlainName_labels`: what each reader makes of a name
- `readers_agree_iff`: the names they agree on
-/

namespace HopDns

open ForStd

/-! ## The text of a name -/

/-- The bytes of the labels that take two in UTF-8. -/
def highBytes (labels : List Str) : Nat := (labels.map fun l => l.countP (0x80 ≤ ·)).sum

/-- A byte that is not ASCII takes two bytes as a `char`. -/
private theorem length_flatMap_charFrom (l : Str) :
    (l.flatMap charFrom).length = l.length + l.countP (0x80 ≤ ·) := by
  -- the induction is on the label; a byte with the high bit set takes two
  induction l with
  | nil => rfl
  | cons b l ih =>
    have hchar : (charFrom b).length = if 0x80 ≤ b then 2 else 1 := by
      unfold charFrom
      split
      · rename_i hlow
        rw [if_neg (UInt8.not_le.mpr hlow)]
        rfl
      · rename_i hhigh
        rw [if_pos (UInt8.not_lt.mp hhigh)]
        rfl
    rw [List.flatMap_cons, List.length_append, ih, hchar, List.length_cons, List.countP_cons]
    simp only [decide_eq_true_eq]
    split <;> omega

/-- The text against the wire. -/
private theorem length_fullText (labels : List Str) :
    (fullText labels).length + 1 = (Dns.wire labels).length + highBytes labels := by
  induction labels with
  | nil => rfl
  | cons l labels ih =>
    rw [fullText_cons, List.length_append, List.length_append, length_flatMap_charFrom,
      List.length_singleton, Dns.length_wire_cons, highBytes, List.map_cons, List.sum_cons,
      ← highBytes]
    omega

/-! ## Each reader on a name -/

/-- `read_name` reads a name when its text is short enough. -/
theorem readName_labels {msg : List UInt8} {labels : List Str} (hlegal : Dns.Legal labels)
    {pos : Nat} (hat : msg.HasAt pos (Dns.wire labels)) (e : Nat) :
    (∃ name, Yields (readName msg pos) (.ok (name, e))) ↔
      (fullText labels).length ≤ NAME_MAX ∧ e = pos + (Dns.wire labels).length := by
  -- from the empty name on, the whole name is read or it is too long
  have hread := @readNameFrom_labels msg labels hlegal pos hat [] (Nat.zero_le _) none
  rw [List.length_nil, Nat.zero_add, List.nil_append] at hread
  constructor
  · rintro ⟨name, hyields⟩
    have heq := hyields.unique hread
    split at heq
    · rename_i hfits
      exact ⟨hfits, (Prod.mk.inj (Except.ok.inj heq)).2⟩
    · cases heq
  · rintro ⟨hfits, rfl⟩
    rw [if_pos hfits] at hread
    exact ⟨_, hread⟩

/-- `skip_plain_name` takes a name when it is short enough on the wire. -/
theorem skipPlainName_labels {msg : List UInt8} {labels : List Str} (hlegal : Dns.Legal labels)
    {pos : Nat} (hat : msg.HasAt pos (Dns.wire labels)) (e : Nat) :
    skipPlainName msg pos = some e ↔
      (Dns.wire labels).length ≤ NAME_MAX ∧ e = pos + (Dns.wire labels).length := by
  rw [skipPlainName, skipPlainNameFrom_wire hlegal hat, Nat.add_sub_cancel_left]
  split
  · rename_i hfits
    simp [hfits, eq_comm]
  · rename_i hlong
    simp [hlong]

/-! ## Both -/

/-- From `pos` on a name starts without a pointer: no byte in the place of a length, behind any
    labels, is one of a pointer. -/
def PlainFrom (msg : List UInt8) (pos : Nat) : Prop :=
  ∀ labels b, Dns.Legal labels → msg.HasAt pos (labels.flatMap Dns.labelBytes) →
    msg[pos + (labels.flatMap Dns.labelBytes).length]? = some b → b.toNat < 0xC0

/-- Behind a label a name that is plain is still plain. -/
theorem PlainFrom.behind {msg : List UInt8} {pos : Nat} {l : Str} (h : PlainFrom msg pos)
    (hl : Dns.LegalLabel l) (hat : msg.HasAt pos (Dns.labelBytes l)) :
    PlainFrom msg (pos + (Dns.labelBytes l).length) := by
  intro labels b hlabels hrest hb
  refine h (l :: labels) b (hlabels.cons hl) ?_ ?_
  · rw [List.flatMap_cons, List.hasAt_append]
    exact ⟨hat, hrest⟩
  · rw [List.flatMap_cons, List.length_append, ← Nat.add_assoc]
    exact hb

/-- A name that starts without a pointer and has an end consists of labels. -/
private theorem PlainFrom.exists_labels {msg owner : List UInt8} {pos : Nat} (h : PlainFrom msg pos)
    (howner : Dns.NameBytes owner) (hat : msg.HasAt pos owner) :
    ∃ labels, Dns.Legal labels ∧ owner = Dns.wire labels := by
  induction howner generalizing pos with
  | root => exact ⟨[], Dns.legal_nil, rfl⟩
  | pointer b₀ b₁ hb₀ =>
    have hlt := h [] b₀ Dns.legal_nil (List.hasAt_nil _ _) (List.hasAt_cons.mp hat).1
    omega
  | @label l n hl _ ih =>
    obtain ⟨hlabel, hrest⟩ := List.hasAt_append.mp hat
    obtain ⟨labels, hlegal, rfl⟩ := ih (h.behind hl hlabel) hrest
    exact ⟨l :: labels, hlegal.cons hl, (Dns.wire_cons l labels).symm⟩

/-- Where a name of labels stands, one starts without a pointer. -/
private theorem plainFrom_wire {msg : List UInt8} {labels : List Str} (hlegal : Dns.Legal labels)
    {pos : Nat} (hat : msg.HasAt pos (Dns.wire labels)) : PlainFrom msg pos := by
  intro labels' b hlegal' hat' hb
  -- the induction is on the labels that were passed, against those of the name
  induction labels' generalizing labels pos with
  -- the byte at the place starts a label or ends the name
  | nil =>
    rw [List.flatMap_nil, List.length_nil, Nat.add_zero] at hb
    cases labels with
    | nil =>
      obtain rfl := Option.some.inj (hb.symm.trans (hasAt_wire_nil.mp hat))
      decide
    | cons l labels =>
      obtain rfl := Option.some.inj (hb.symm.trans (hasAt_wire_cons.mp hat).1)
      have hl := hlegal.head
      rw [hl.toNat_ofNat]
      exact Nat.lt_of_le_of_lt hl.2 (by decide)
  -- both first labels are the same, so both rests are at the same place
  | cons l' labels' ih =>
    rw [List.flatMap_cons, List.hasAt_append] at hat'
    rw [List.flatMap_cons, List.length_append, ← Nat.add_assoc] at hb
    obtain ⟨hl', hrest'⟩ := hat'
    have hlen' := (List.hasAt_cons.mp hl').1
    have hpos := hlegal'.head.1
    cases labels with
    | nil =>
      -- the empty label is no label
      have hzero := Option.some.inj (hlen'.symm.trans (hasAt_wire_nil.mp hat))
      have := congrArg UInt8.toNat hzero
      rw [hlegal'.head.toNat_ofNat, UInt8.toNat_zero] at this
      omega
    | cons l labels =>
      obtain ⟨hlen, -, hrest⟩ := hasAt_wire_cons.mp hat
      have hsame := congrArg UInt8.toNat (Option.some.inj (hlen'.symm.trans hlen))
      rw [hlegal'.head.toNat_ofNat, hlegal.head.toNat_ofNat] at hsame
      rw [Dns.length_labelBytes, hsame, show pos + (l.length + 1) = pos + 1 + l.length by omega]
        at hrest' hb
      exact ih hlegal.tail hrest hlegal'.tail hrest' hb

/-- Where no whole name stands neither reader finds one. -/
private theorem readers_none {msg : List UInt8} {pos : Nat} (h : PlainFrom msg pos)
    (hnone : ∀ labels, Dns.Legal labels → ¬msg.HasAt pos (Dns.wire labels)) (e : Nat) :
    (∃ name, Yields (readName msg pos) (.ok (name, e))) ↔ skipPlainName msg pos = some e := by
  constructor
  · rintro ⟨name, hyields⟩
    obtain ⟨owner, howner, hat, -⟩ := skipName_eq_some.mp (skipName_of_readName hyields.ample)
    obtain ⟨labels, hlegal, rfl⟩ := h.exists_labels howner hat
    exact absurd hat (hnone labels hlegal)
  · intro hskip
    obtain ⟨n, hat, -⟩ := skipPlainName_eq_some.mp hskip
    exact absurd hat (hnone n.labels n.legal)

/-- The two readers agree on a name without pointers exactly when it is not one of 256 bytes on
    the wire, all of them ASCII, and not one within 255 bytes whose text, with two bytes for each
    that is not ASCII, is longer than that. -/
theorem readers_agree_iff {msg : List UInt8} {pos : Nat} (h : PlainFrom msg pos) :
    (∀ e, (∃ name, Yields (readName msg pos) (.ok (name, e))) ↔ skipPlainName msg pos = some e) ↔
      ∀ labels, Dns.Legal labels → msg.HasAt pos (Dns.wire labels) →
        ¬((Dns.wire labels).length = 256 ∧ highBytes labels = 0) ∧
        ¬((Dns.wire labels).length ≤ 255 ∧ 256 < (Dns.wire labels).length + highBytes labels) := by
  constructor
  -- each reader's condition is one on the two lengths
  · intro hagree labels hlegal hat
    have hboth := hagree (pos + (Dns.wire labels).length)
    rw [readName_labels hlegal hat, skipPlainName_labels hlegal hat, and_iff_left rfl,
      and_iff_left rfl] at hboth
    have hlen := length_fullText labels
    unfold NAME_MAX at hboth
    omega
  -- without a name on the wire neither of them reads anything
  · intro hlimits e
    by_cases hname : ∃ labels, Dns.Legal labels ∧ msg.HasAt pos (Dns.wire labels)
    · obtain ⟨labels, hlegal, hat⟩ := hname
      have hlen := length_fullText labels
      have hlimit := hlimits labels hlegal hat
      rw [readName_labels hlegal hat, skipPlainName_labels hlegal hat]
      unfold NAME_MAX
      omega
    · exact readers_none h (fun labels hlegal hat => hname ⟨labels, hlegal, hat⟩) e

/-- Four ASCII labels that take 256 bytes on the wire. -/
def edgeLabels : List Str :=
  [List.replicate 63 0x61, List.replicate 63 0x61, List.replicate 63 0x61, List.replicate 62 0x61]

/-- Three labels of bytes above ASCII, 193 bytes on the wire. -/
def highLabels : List Str :=
  [List.replicate 63 0xC3, List.replicate 63 0xC3, List.replicate 63 0xC3]

/-- The reader of answers alone takes a name of 256 bytes, and the reader of questions alone one
    of 193 bytes that are not ASCII. -/
theorem readers_differ :
    (PlainFrom (Dns.wire edgeLabels) 0 ∧
      (∃ name, Yields (readName (Dns.wire edgeLabels) 0) (.ok (name, 256))) ∧
      skipPlainName (Dns.wire edgeLabels) 0 = none) ∧
    PlainFrom (Dns.wire highLabels) 0 ∧
      (∀ name e, ¬Yields (readName (Dns.wire highLabels) 0) (.ok (name, e))) ∧
      skipPlainName (Dns.wire highLabels) 0 = some 193 := by
  -- each of the two messages is one name, written from its start
  have hat : ∀ bytes : List UInt8, bytes.HasAt 0 bytes := fun bytes => List.prefix_rfl
  have hedge : Dns.Legal edgeLabels := by decide
  have hhigh : Dns.Legal highLabels := by decide
  have hedgeWire : (Dns.wire edgeLabels).length = 256 := by decide +kernel
  have hhighWire : (Dns.wire highLabels).length = 193 := by decide +kernel
  -- the first text has 255 bytes with its dots; in the second each high byte takes two
  have hedgeText := length_fullText edgeLabels
  have hhighText := length_fullText highLabels
  rw [hedgeWire, show highBytes edgeLabels = 0 by decide +kernel] at hedgeText
  rw [hhighWire, show highBytes highLabels = 189 by decide +kernel] at hhighText
  refine ⟨⟨plainFrom_wire hedge (hat _), ?_, ?_⟩, plainFrom_wire hhigh (hat _), ?_, ?_⟩
  -- `read_name` takes the 256 octets, which are one too many for `skip_plain_name`
  · rw [readName_labels hedge (hat _), hedgeWire]
    unfold NAME_MAX
    omega
  · refine Option.eq_none_iff_forall_ne_some.mpr fun e he => ?_
    rw [skipPlainName_labels hedge (hat _), hedgeWire] at he
    exact absurd he.1 (by decide)
  -- the other way round: 193 octets make a text of more than 255 bytes
  · intro name e hread
    have hfits := ((readName_labels hhigh (hat _) e).mp ⟨name, hread⟩).1
    unfold NAME_MAX at hfits
    omega
  · rw [skipPlainName_labels hhigh (hat _), hhighWire]
    exact ⟨by decide, rfl⟩

/-- The two readers of a name of one label. -/
theorem readers_agree_iff_web :
    (∀ e, (∃ name, Yields (readName (Dns.wire [str "web"]) 0) (.ok (name, e))) ↔
      skipPlainName (Dns.wire [str "web"]) 0 = some e) ↔
        ∀ labels, Dns.Legal labels → (Dns.wire [str "web"]).HasAt 0 (Dns.wire labels) →
          ¬((Dns.wire labels).length = 256 ∧ highBytes labels = 0) ∧
          ¬((Dns.wire labels).length ≤ 255 ∧ 256 < (Dns.wire labels).length + highBytes labels) :=
  readers_agree_iff (plainFrom_wire (by decide) List.prefix_rfl)

end HopDns
