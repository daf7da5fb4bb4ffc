import ModelGraph.Proofs.Decoding

namespace ModelGraph

open HashInput

/-- The methods by which fields are written. -/
inductive HashMethod where
  | str | optStr | strings | bool | u64 | i64 | json | code | hashable | optHashable | codes | list
  deriving DecidableEq, Repr

namespace HashMethod

/-- What a method is given; nested values are of a type of their own. -/
def Argument (Value : Type) : HashMethod → Type
  | .str => String
  | .optStr => Option String
  | .strings => List String
  | .bool => Bool
  | .u64 => UInt64
  | .i64 => Int64
  | .json => Json
  | .code => Digest
  | .hashable => Value
  | .optHashable => Option Value
  | .codes => List Digest
  | .list => List Value

variable {Value : Type} (hashCode : Value → Digest)

/-- The bytes of a call; a nested value is written by its digest. -/
def write : (m : HashMethod) → m.Argument Value → HashInput
  | .str, s => text s
  | .optStr, s => optText s
  | .strings, items => texts items
  | .bool, b => flag b
  | .u64, n => word n.toNat
  | .i64, n => word n.toInt
  | .json, j => HashInput.json j
  | .code, d => HashInput.code d
  | .hashable, v => HashInput.code (hashCode v)
  | .optHashable, v => optCode (v.map hashCode)
  | .codes, ds => HashInput.codes ds
  | .list, items => HashInput.codes (items.map hashCode)

/-- A word counts the bytes of each text, and the items of each list. -/
def Fits : (m : HashMethod) → m.Argument Value → Prop
  | .str, s => s.utf8ByteSize < UInt64.size
  | .optStr, (s : Option String) => ∀ t ∈ s, t.utf8ByteSize < UInt64.size
  | .strings, (items : List String) =>
    items.length < UInt64.size ∧ ∀ s ∈ items, s.utf8ByteSize < UInt64.size
  | .json, j => j.compact.utf8ByteSize < UInt64.size
  | .codes, ds => ds.length < UInt64.size
  | .list, items => items.length < UInt64.size
  | _, _ => True

/-- Arguments that are the same to a method: free-form values by their text, nested values by their
digests. -/
def Same : (m : HashMethod) → m.Argument Value → m.Argument Value → Prop
  | .json, i, j => i.SameText j
  | .hashable, v, w => hashCode v = hashCode w
  | .optHashable, v, w => v.map hashCode = w.map hashCode
  | .list, vs, ws => vs.map hashCode = ws.map hashCode
  | _, a, b => a = b

end HashMethod

structure HashCall (Value : Type) where
  method : HashMethod
  argument : method.Argument Value

namespace HashCall

variable {Value : Type} (hashCode : Value → Digest)

def written (c : HashCall Value) : HashInput := c.method.write hashCode c.argument

def Fits (c : HashCall Value) : Prop := c.method.Fits c.argument

/-- Calls of one method with arguments that are the same to it. -/
inductive Same : HashCall Value → HashCall Value → Prop
  | mk {m : HashMethod} {a b : m.Argument Value} (same : m.Same hashCode a b) : Same ⟨m, a⟩ ⟨m, b⟩

end HashCall

def HashInput.ofCalls {Value : Type} (hashCode : Value → Digest) (t : HashTag)
    (calls : List (HashCall Value)) : HashInput :=
  tag t ++ calls.flatMap (HashCall.written hashCode)

namespace HashInput

theorem separates_unsigned : Separates (fun _ => True) Eq fun n : UInt64 => word n.toNat := by
  apply separates_of_length fun _ => length_word _
  intro m n h
  exact UInt64.toNat_inj.mp (word_natCast_inj m.toNat_lt n.toNat_lt h)

theorem separates_signed : Separates (fun _ => True) Eq fun n : Int64 => word n.toInt := by
  apply separates_of_length fun _ => length_word _
  intro m n h
  have hmod := word_inj h
  have hm := m.le_toInt
  have hm' := m.toInt_lt
  have hn := n.le_toInt
  have hn' := n.toInt_lt
  apply Int64.toInt_inj.mp
  unfold UInt64.size at hmod
  omega

theorem separates_codes :
    Separates (fun ds : List Digest => ds.length < UInt64.size) Eq codes := by
  intro ds es x y hd he h
  obtain ⟨hall, hxy⟩ := separates_code.counted ⟨hd, fun _ _ => trivial⟩ ⟨he, fun _ _ => trivial⟩ h
  exact ⟨eq_of_forall₂ hall, hxy⟩

theorem separates_optCode : Separates (fun _ => True) Eq optCode := by
  intro o p x y _ _ h
  obtain ⟨hrel, hxy⟩ := separates_code.optional (fun _ _ => trivial) (fun _ _ => trivial) h
  exact ⟨eq_of_optionRel hrel, hxy⟩

variable {Value : Type} {hashCode : Value → Digest}

theorem separates_list (hashCode : Value → Digest) :
    Separates (fun vs : List Value => vs.length < UInt64.size)
      (fun vs ws => vs.map hashCode = ws.map hashCode) (fun vs => codes (vs.map hashCode)) := by
  intro vs ws x y hv hw h
  rw [← List.length_map hashCode] at hv hw
  exact separates_codes hv hw h

theorem separates_write (m : HashMethod) :
    Separates m.Fits (m.Same hashCode) (m.write hashCode) := by
  cases m with
  | str => exact separates_text
  | optStr => exact separates_text.optional.mono fun _ _ => eq_of_optionRel
  | strings => exact separates_text.counted.mono fun _ _ => eq_of_forall₂
  | bool => exact separates_flag
  | u64 => exact separates_unsigned
  | i64 => exact separates_signed
  | json => exact separates_text.comp Json.compact
  | code => exact separates_code
  | hashable => exact separates_code.comp hashCode
  | optHashable => exact separates_optCode.comp (Option.map hashCode)
  | codes => exact separates_codes
  | list => exact separates_list hashCode

theorem forall₂_of_calls {calls calls' : List (HashCall Value)} {x y : HashInput}
    (hmethods : calls.map HashCall.method = calls'.map HashCall.method)
    (hfit : ∀ c ∈ calls, c.Fits) (hfit' : ∀ c ∈ calls', c.Fits)
    (h : calls.flatMap (HashCall.written hashCode) ++ x =
      calls'.flatMap (HashCall.written hashCode) ++ y) :
    List.Forall₂ (HashCall.Same hashCode) calls calls' ∧ x = y := by
  induction calls generalizing calls' with
  | nil =>
    rw [List.map_eq_nil_iff.mp hmethods.symm] at h ⊢
    exact ⟨.nil, h⟩
  | cons c calls ih =>
    cases calls' with
    | nil => cases hmethods
    | cons c' calls' =>
      obtain ⟨m, a⟩ := c
      obtain ⟨m', b⟩ := c'
      rw [List.map_cons, List.map_cons, List.cons.injEq] at hmethods
      obtain ⟨hm, hmethods⟩ := hmethods
      cases hm
      rw [List.forall_mem_cons] at hfit hfit'
      rw [List.flatMap_cons, List.flatMap_cons, List.append_assoc, List.append_assoc] at h
      obtain ⟨hsame, h⟩ := separates_write m hfit.1 hfit'.1 h
      obtain ⟨hrest, hxy⟩ := ih hmethods hfit.2 hfit'.2 h
      exact ⟨.cons (.mk hsame) hrest, hxy⟩

theorem length_tag_lt (t : HashTag) : t.text.utf8ByteSize < UInt64.size := by
  cases t <;> decide

/-- Of two inputs written by calls of the same methods, one is the beginning of the other only where
they are the same, tag by tag and argument by argument. -/
theorem ofCalls_prefixFree {s t : HashTag} {calls calls' : List (HashCall Value)}
    (hmethods : calls.map HashCall.method = calls'.map HashCall.method)
    (hfit : ∀ c ∈ calls, c.Fits) (hfit' : ∀ c ∈ calls', c.Fits)
    (h : ofCalls hashCode s calls <+: ofCalls hashCode t calls') :
    s = t ∧ List.Forall₂ (HashCall.Same hashCode) calls calls' ∧
      ofCalls hashCode s calls = ofCalls hashCode t calls' := by
  obtain ⟨more, hmore⟩ := h
  have hstream := hmore
  rw [ofCalls, ofCalls, List.append_assoc] at hstream
  obtain ⟨htag, hcalls⟩ := separates_text (length_tag_lt s) (length_tag_lt t) hstream
  rw [← List.append_nil (calls'.flatMap _)] at hcalls
  obtain ⟨hsame, hend⟩ := forall₂_of_calls hmethods hfit hfit' hcalls
  rw [hend, List.append_nil] at hmore
  exact ⟨tag_inj htag, hsame, hmore⟩

/-- Nested values that differ, but not in their digests, are the same to a hasher; a name that goes on
is told apart although the former is its beginning. -/
theorem class_prefixFree :
    let hashCode : Bool × String → Digest := fun v => digest (text v.2)
    let calls : String → Bool → List (HashCall (Bool × String)) := fun name note =>
      [⟨.str, name⟩, ⟨.strings, ["c", ""]⟩, ⟨.i64, (-1 : Int64)⟩, ⟨.list, [(note, "x")]⟩]
    List.Forall₂ (HashCall.Same hashCode) (calls "ab" true) (calls "ab" false) ∧
      ¬ofCalls hashCode .class (calls "ab" true) <+: ofCalls hashCode .class (calls "abc" false) := by
  intro hashCode calls
  have hfit : ∀ name ∈ ["ab", "abc"], ∀ note, ∀ c ∈ calls name note, c.Fits := by
    intro name hname note
    have hstr : name.utf8ByteSize < UInt64.size := by
      rcases List.mem_pair.mp hname with rfl | rfl <;> decide
    simp only [calls, List.forall_mem_cons]
    exact ⟨hstr, ⟨by decide, by decide⟩, trivial, (by decide : 1 < UInt64.size),
      List.forall_mem_nil _⟩
  have hab := hfit "ab" (by decide)
  have hmethods (name : String) : (calls "ab" true).map HashCall.method =
      (calls name false).map HashCall.method := rfl
  constructor
  · have hsame : ofCalls hashCode .class (calls "ab" true) =
        ofCalls hashCode .class (calls "ab" false) := by
      simp only [ofCalls, calls, List.flatMap_cons, HashCall.written, HashMethod.write,
        List.map_cons, hashCode]
    have hprefix : ofCalls hashCode .class (calls "ab" true) <+:
        ofCalls hashCode .class (calls "ab" false) :=
      ⟨[], by rw [List.append_nil, hsame]⟩
    exact (ofCalls_prefixFree (hmethods "ab") (hab true) (hab false) hprefix).2.1
  · intro h
    obtain ⟨-, hsame, -⟩ :=
      ofCalls_prefixFree (hmethods "abc") (hab true) (hfit "abc" (by decide) false) h
    cases List.forall₂_cons.mp hsame with
    | intro hname _ =>
      cases hname with
      | mk heq => exact absurd heq (by decide : "ab" ≠ "abc")

end HashInput
end ModelGraph
