import NixstrCache.Protocol.Hashtree

/-!
The two orders of names.

Manifests are sorted by the bytes of the names, and the resolver compares UTF-16 units.  The orders are the
same for names without characters beyond the basic plane, where the bytes, the units and the characters
are ordered alike.
-/

namespace NixstrCache.Protocol

section Characters

def Basic (name : String) : Prop :=
  ∀ c ∈ name.toList, c.toNat < 0x10000

theorem append_lt_append {α : Type} [LT α] [Std.Irrefl (· < · : α → α → Prop)] (front : List α)
    {a b : List α} :
    front ++ a < front ++ b ↔ a < b := by
  induction front with
  | nil => rfl
  | cons x front ih => rw [List.cons_append, List.cons_append, List.cons_lt_cons_self, ih]

theorem ofNat_lt {m n : ℕ} (hm : m < 256) (hn : n < 256) : UInt8.ofNat m < UInt8.ofNat n ↔ m < n :=
  UInt8.ofNat_lt_iff_lt hm hn

theorem ofNat_eq {m n : ℕ} (hm : m < 256) (hn : n < 256) : UInt8.ofNat m = UInt8.ofNat n ↔ m = n := by
  rw [← UInt8.toNat_inj, UInt8.toNat_ofNat', UInt8.toNat_ofNat', Nat.mod_eq_of_lt hm, Nat.mod_eq_of_lt hn]

theorem encodeChar_lt {c d : Char} (h : c.toNat < d.toNat) (hd : d.toNat < 0x10000) (x y : List UInt8) :
    String.utf8EncodeChar c ++ x < String.utf8EncodeChar d ++ y := by
  change c.val.toNat < d.val.toNat at h
  change d.val.toNat < 0x10000 at hd
  rw [String.utf8EncodeChar, String.utf8EncodeChar]
  generalize c.val.toNat = m at h
  generalize d.val.toNat = n at h hd
  have hwide : m ≤ 0xffff ∧ n ≤ 0xffff := by omega
  simp only [hwide.1, hwide.2, if_true]
  split_ifs
  all_goals simp (disch := omega) only [List.cons_append, List.nil_append, List.cons_lt_cons_iff,
    ofNat_lt, ofNat_eq]
  all_goals omega

end Characters

section Names

theorem utf16_basic {name : String} (h : Basic name) : utf16 name = name.toList.map Char.toNat := by
  rw [utf16, List.map_eq_flatMap]
  refine List.flatMap_congr fun c hc => ?_
  rw [utf16Units, if_pos (h c hc)]

theorem encode_lt_iff {a b : List Char} (ha : ∀ c ∈ a, c.toNat < 0x10000) (hb : ∀ c ∈ b, c.toNat < 0x10000) :
    a.flatMap String.utf8EncodeChar < b.flatMap String.utf8EncodeChar ↔
      a.map Char.toNat < b.map Char.toNat := by
  induction a generalizing b with
  | nil =>
    cases b with
    | nil => simp
    | cons y b =>
      have hfilled : String.utf8EncodeChar y ≠ [] := by
        rw [String.utf8EncodeChar]
        split_ifs <;> simp
      obtain ⟨byte, rest, hbytes⟩ := List.exists_cons_of_ne_nil hfilled
      rw [List.flatMap_cons, hbytes]
      simp
  | cons x a ih =>
    cases b with
    | nil => simp
    | cons y b =>
      obtain ⟨hx, hrest⟩ := List.forall_mem_cons.mp ha
      obtain ⟨hy, hother⟩ := List.forall_mem_cons.mp hb
      rw [List.flatMap_cons, List.flatMap_cons, List.map_cons, List.map_cons, List.cons_lt_cons_iff]
      rcases lt_trichotomy x.toNat y.toNat with hlt | heq | hgt
      · simp only [encodeChar_lt hlt hy, hlt, true_or]
      · obtain rfl : x = y := Char.toNat_inj.mp heq
        rw [append_lt_append, ih hrest hother]
        simp
      · have hback := encodeChar_lt hgt hx (b.flatMap String.utf8EncodeChar) (a.flatMap String.utf8EncodeChar)
        simp only [List.lt_asymm hback, false_iff, not_or]
        omega

theorem basic_lt_iff {a b : String} (ha : Basic a) (hb : Basic b) : utf8 a < utf8 b ↔ utf16 a < utf16 b := by
  rw [utf16_basic ha, utf16_basic hb]
  exact encode_lt_iff ha hb

theorem basic_le_iff {a b : String} (ha : Basic a) (hb : Basic b) : utf8 a ≤ utf8 b ↔ utf16 a ≤ utf16 b := by
  rw [← List.not_lt, ← not_lt, basic_lt_iff hb ha]

end Names

end NixstrCache.Protocol
