import HopDns.Spec.NameCorrect
import HopDns.Spec.QueryCorrect

/-!
# The text of a name gives the name back

Names are compared as texts, with dots between the labels. A label with a dot or with a
byte that cannot be seen has no text, so a dot in a text stands between two labels, and
names with the same text have the same labels but for the case of their letters.

## Key results

- `splitText_text`: a text gives back its labels
- `nameText_faithful`: when a name has a text, and which names share one
-/

namespace HopDns

/-- The labels of a text: its parts between the dots, and none for the root. -/
def splitText (t : Str) : List Str := if t = [] then [] else t.splitOn dot

private theorem dot_not_mem_lowercase {l : Str} (h : VisibleLabel l) : dot ∉ lowercase l :=
  fun hdot => (h dot ((dot_mem_lowercase l).mp hdot)).2 rfl

/-- A text gives back its labels in lower case. -/
theorem splitText_text {labels : List Str} (hlegal : Dns.Legal labels)
    (hvisible : VisibleLabels labels) : splitText (text labels) = labels.map lowercase := by
  unfold splitText
  -- the empty text has no label, and a text with one has as many as it has dots and one more
  cases labels with
  | nil => rfl
  | cons l labels =>
    have hne : text (l :: labels) ≠ [] := by
      rw [text_cons]
      refine List.append_ne_nil_of_left_ne_nil (List.ne_nil_of_length_pos ?_) _
      rw [length_lowercase]
      exact hlegal.head.1
    rw [if_neg hne, text, List.splitOn_intercalate dot ?_ (by simp)]
    -- no label brings a dot of its own
    intro part hpart
    obtain ⟨l', hl', rfl⟩ := List.mem_map.mp hpart
    exact dot_not_mem_lowercase (hvisible l' hl')

/-- A name has a text unless one of its bytes is a dot or cannot be seen. -/
private theorem nameText_eq_none (n : Dns.Name) : nameText n.wire = none ↔
    ∃ l ∈ n.labels, ∃ b ∈ l, ¬(0x21 ≤ b ∧ b ≤ 0x7E) ∨ b = dot := by
  rw [nameText_wire]
  -- a visible name is one with no byte that is bad
  have hvisible : VisibleLabels n.labels ↔
      ¬∃ l ∈ n.labels, ∃ b ∈ l, ¬(0x21 ≤ b ∧ b ≤ 0x7E) ∨ b = dot := by
    constructor
    · rintro h ⟨l, hl, b, hb, hbad⟩
      obtain ⟨hrange, hdot⟩ := h l hl b hb
      exact hbad.elim (fun hnot => hnot hrange) hdot
    · intro h l hl b hb
      constructor
      · exact Decidable.byContradiction fun hnot => h ⟨l, hl, b, hb, .inl hnot⟩
      · exact fun hdot => h ⟨l, hl, b, hb, .inr hdot⟩
  split
  · rename_i h
    exact iff_of_false (Option.some_ne_none _) (hvisible.mp h)
  · rename_i h
    exact iff_of_true rfl (Decidable.not_not.mp (mt hvisible.mpr h))

/-- The text of a name splits into its labels in lower case. -/
private theorem splitText_nameText {n : Dns.Name} {t : Str} (h : nameText n.wire = some t) :
    t = text n.labels ∧ splitText t = n.labels.map lowercase := by
  rw [nameText_wire] at h
  split at h
  · rename_i hvisible
    obtain rfl := Option.some.inj h
    exact ⟨rfl, splitText_text n.legal hvisible⟩
  · cases h

/-- What the text of a name is like: short, visible, in lower case, and without a dot at its
    end. -/
structure NameLike (t : Str) : Prop where
  length_le : t.length ≤ 255
  visible : ∀ b ∈ t, 0x21 ≤ b ∧ b ≤ 0x7E
  lower : lowercase t = t
  undotted : t.getLast? ≠ some dot

theorem NameLike.stripDot_eq {t : Str} (h : NameLike t) : stripDot t = t := if_neg h.undotted

/-- A text is shorter than its name on the wire. -/
private theorem length_text_lt (labels : List Str) :
    (text labels).length < (Dns.wire labels).length := by
  -- each label brings its bytes and at most one dot, and on the wire one length byte
  cases labels with
  | nil => decide
  | cons l labels =>
    have hrest : (labels.flatMap fun l => dot :: lowercase l).length + 1 ≤
        (Dns.wire labels).length := by
      induction labels with
      | nil => decide
      | cons l' labels ih =>
        rw [Dns.length_wire_cons, List.flatMap_cons, List.length_append, List.length_cons,
          length_lowercase]
        omega
    rw [text_cons, Dns.length_wire_cons, List.length_append, length_lowercase]
    omega

/-- Every byte of the text is one of a label or a dot between them. -/
theorem mem_text {labels : List Str} {b : UInt8} (h : b ∈ text labels) :
    b = dot ∨ ∃ l ∈ labels, b ∈ lowercase l := by
  cases labels with
  | nil => cases h
  | cons l labels =>
    rw [text_cons, List.mem_append, List.mem_flatMap] at h
    obtain h | ⟨l', hl', h⟩ := h
    · exact .inr ⟨l, List.mem_cons_self, h⟩
    · obtain h | h := List.mem_cons.mp h
      · exact .inl h
      · exact .inr ⟨l', List.mem_cons_of_mem l hl', h⟩

/-- The text is in lower case. -/
private theorem lowercase_text (labels : List Str) : lowercase (text labels) = text labels := by
  cases labels with
  | nil => rfl
  | cons l labels =>
    rw [text_cons, lowercase_append, lowercase_idem]
    refine congrArg _ ?_
    induction labels with
    | nil => rfl
    | cons l' labels ih =>
      rw [List.flatMap_cons, lowercase_append, ih]
      refine congrArg (· ++ _) ?_
      exact congrArg (dot :: ·) (lowercase_idem l')

/-- The text of a name is like one. -/
theorem nameLike_of_nameText {n : Dns.Name} {t : Str} (h : nameText n.wire = some t) :
    NameLike t := by
  rw [nameText_wire] at h
  split at h
  · rename_i hvisible
    obtain rfl := Option.some.inj h
    -- the five properties of a text that stands for a name
    have hfits : (Dns.wire n.labels).length ≤ 255 := n.length_wire_le
    have hlen := length_text_lt n.labels
    have hbyte : ∀ l ∈ n.labels, ∀ b ∈ lowercase l, Visible b := fun l hl =>
      (visibleLabel_lowercase l).mpr (hvisible l hl)
    refine ⟨by omega, fun b hb => ?_, lowercase_text _, ?_⟩
    · obtain rfl | ⟨l, hl, hb⟩ := mem_text hb
      · decide
      · exact (hbyte l hl b hb).1
    · -- the text ends as its last label does
      obtain hnil | ⟨labels, l, heq⟩ := List.eq_nil_or_concat n.labels
      · rw [hnil]
        exact (Option.some_ne_none _).symm
      · have hl : l ∈ n.labels := by simp [heq]
        have hne : lowercase l ≠ [] := List.ne_nil_of_length_pos (by
          rw [length_lowercase]
          exact (n.legal l hl).1)
        obtain ⟨u, hu⟩ : ∃ u, text n.labels = u ++ lowercase l := by
          cases labels with
          | nil => exact ⟨[], by rw [heq]; exact List.intercalate_singleton⟩
          | cons l' labels =>
            refine ⟨text (l' :: labels) ++ [dot], ?_⟩
            rw [heq, List.concat_eq_append,
              text_append (List.cons_ne_nil _ _) (List.cons_ne_nil _ _), List.append_assoc]
            exact congrArg (fun t => text (l' :: labels) ++ dot :: t) List.intercalate_singleton
        rw [hu, List.getLast?_append, List.getLast?_eq_some_getLast hne, Option.some_or]
        intro hdot
        exact (hbyte l hl _ (List.getLast_mem hne)).2 (Option.some.inj hdot)
  · cases h

/-- The name of an accepted question has a text exactly when each of its bytes can be seen and
    is no dot; the text splits at its dots into the labels in lower case; and two such names
    have the same text exactly when their labels are the same but for the case. -/
theorem nameText_faithful {msg : List UInt8} {q : Query} (h : parseQuery msg = .ok q) :
    ∃ n : Dns.Name, q.qname = n.wire ∧
      (nameText q.qname = none ↔
        ∃ l ∈ n.labels, ∃ b ∈ l, ¬(0x21 ≤ b ∧ b ≤ 0x7E) ∨ b = dot) ∧
      (∀ t, nameText q.qname = some t → splitText t = n.labels.map lowercase) ∧
      ∀ (msg' : List UInt8) (q' : Query) (n' : Dns.Name) (t t' : Str),
        parseQuery msg' = .ok q' → q'.qname = n'.wire → nameText q.qname = some t →
          nameText q'.qname = some t' →
            (t = t' ↔ n.labels.map lowercase = n'.labels.map lowercase) := by
  obtain ⟨n, hn⟩ := Query.exists_asks h
  refine ⟨n, hn.qname, ?_, ?_, ?_⟩
  -- no text means a byte that cannot be shown
  · rw [hn.qname]
    exact nameText_eq_none n
  -- the text splits into the labels it was made of
  · intro t ht
    rw [hn.qname] at ht
    exact (splitText_nameText ht).2
  -- two texts that are equal split into the same labels
  · intro msg' q' n' t t' _ hn' ht ht'
    rw [hn.qname] at ht
    rw [hn'] at ht'
    obtain ⟨htext, hsplit⟩ := splitText_nameText ht
    obtain ⟨htext', hsplit'⟩ := splitText_nameText ht'
    constructor
    · rintro rfl
      exact hsplit.symm.trans hsplit'
    · intro hlabels
      rw [htext, htext', text, text, hlabels]

/-- `Web.Local`, as one may ask for it. -/
def capitalName : Dns.Name := ⟨[str "Web", str "Local"], by decide, by decide⟩

/-- What is said of an accepted question holds of one for that name. -/
theorem nameText_faithful_capital :
    ∃ n : Dns.Name, (queryOf capitalName rtype.A).qname = n.wire ∧
      (nameText (queryOf capitalName rtype.A).qname = none ↔
        ∃ l ∈ n.labels, ∃ b ∈ l, ¬(0x21 ≤ b ∧ b ≤ 0x7E) ∨ b = dot) ∧
      (∀ t, nameText (queryOf capitalName rtype.A).qname = some t →
        splitText t = n.labels.map lowercase) ∧
      ∀ (msg' : List UInt8) (q' : Query) (n' : Dns.Name) (t t' : Str),
        parseQuery msg' = .ok q' → q'.qname = n'.wire →
          nameText (queryOf capitalName rtype.A).qname = some t → nameText q'.qname = some t' →
            (t = t' ↔ n.labels.map lowercase = n'.labels.map lowercase) :=
  nameText_faithful (parseQuery_queryFor capitalName rtype.A)

end HopDns
