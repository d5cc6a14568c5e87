import Mathlib.Data.List.Nodup
import Mathlib.Data.Option.Basic

/-!
Facts about numbers, lists and optional values that are not special to tapes and programs.
-/

namespace UInt8

theorem toNat_ne_zero {a : UInt8} (h : a ≠ 0) : a.toNat ≠ 0 :=
  fun hzero => h (UInt8.toNat_inj.1 hzero)

theorem toNat_sub_one {a : UInt8} (h : a ≠ 0) : (a - 1).toNat = a.toNat - 1 :=
  UInt8.toNat_sub_of_le _ _
    (UInt8.le_iff_toNat_le.2 (Nat.one_le_iff_ne_zero.2 (toNat_ne_zero h)))

theorem toNat_sub_one_lt {a : UInt8} (h : a ≠ 0) : (a - 1).toNat < a.toNat := by
  rw [toNat_sub_one h]
  exact Nat.sub_one_lt (toNat_ne_zero h)

theorem ofInt_natCast (n : Nat) : UInt8.ofInt n = UInt8.ofNat n := by
  apply UInt8.toNat.inj
  simp only [UInt8.ofInt, UInt8.toNat_ofNat']
  omega

theorem sub_div_mul (a b : UInt8) : a - a / b * b = a % b := by
  have hle := Nat.div_mul_le_self a.toNat b.toNat
  have hmul : (a / b * b).toNat = a.toNat / b.toNat * b.toNat := by
    rw [UInt8.toNat_mul, UInt8.toNat_div]
    exact Nat.mod_eq_of_lt (Nat.lt_of_le_of_lt hle a.toNat_lt)
  rw [← UInt8.toNat_inj, UInt8.toNat_sub_of_le _ _ (UInt8.le_iff_toNat_le.2 (hmul ▸ hle)), hmul,
    UInt8.toNat_mod]
  have hsum := Nat.mod_add_div' a.toNat b.toNat
  omega

end UInt8

namespace Char

variable {c d : Char}

theorem toUInt8_inj (hc : c.toNat < 0x100) (hd : d.toNat < 0x100) (h : c.toUInt8 = d.toUInt8) :
    c = d := by
  have hbytes : UInt8.ofNat c.toNat = UInt8.ofNat d.toNat := h
  have hnat := congrArg UInt8.toNat hbytes
  rw [UInt8.toNat_ofNat_of_lt' hc, UInt8.toNat_ofNat_of_lt' hd] at hnat
  exact Char.toNat_inj.1 hnat

theorem toUInt8_ne_zero (h : 0 < c.toNat ∧ c.toNat < 0x100) : c.toUInt8 ≠ 0 := by
  intro hzero
  have hnat := congrArg UInt8.toNat (show UInt8.ofNat c.toNat = 0 from hzero)
  rw [UInt8.toNat_ofNat_of_lt' h.2] at hnat
  exact Nat.ne_of_gt h.1 hnat

end Char

theorem Except.exists_eq_ok_of_isOk {ε α : Type} {x : Except ε α} (h : x.isOk) :
    ∃ a, x = .ok a := by
  cases x with
  | ok a => exact ⟨a, rfl⟩
  | error c => cases h

/-- Options that look the same are both empty or both full. -/
theorem Option.cases_of_map_eq {α β : Type} {view : α → β} {o o' : Option α}
    (h : o.map view = o'.map view) :
    o = none ∧ o' = none ∨ ∃ a a', o = some a ∧ o' = some a' ∧ view a = view a' := by
  cases o with
  | none =>
    cases o' with
    | none => exact Or.inl ⟨rfl, rfl⟩
    | some a' => cases h
  | some a =>
    cases o' with
    | none => cases h
    | some a' => exact Or.inr ⟨a, a', rfl, rfl, Option.some.inj h⟩

namespace Option.Rel

variable {α β γ δ : Type} {R S : α → β → Prop} {o : Option α} {o' : Option β}

theorem mono (h : Option.Rel R o o') (hRS : ∀ a b, R a b → S a b) : Option.Rel S o o' := by
  cases h with
  | some h => exact .some (hRS _ _ h)
  | none => exact .none

theorem bind {T : γ → δ → Prop} {f : α → Option γ} {f' : β → Option δ} (h : Option.Rel R o o')
    (hf : ∀ a b, R a b → Option.Rel T (f a) (f' b)) : Option.Rel T (o.bind f) (o'.bind f') := by
  cases h with
  | some h => exact hf _ _ h
  | none => exact .none

theorem map {T : γ → δ → Prop} {f : α → γ} {f' : β → δ} (h : Option.Rel R o o')
    (hf : ∀ a b, R a b → T (f a) (f' b)) : Option.Rel T (o.map f) (o'.map f') := by
  cases h with
  | some h => exact .some (hf _ _ h)
  | none => exact .none

theorem map_eq {f : α → γ} {f' : β → γ} (h : Option.Rel R o o')
    (hf : ∀ a b, R a b → f' b = f a) : o'.map f' = o.map f := by
  cases h with
  | some h => exact congrArg Option.some (hf _ _ h)
  | none => rfl

end Option.Rel

namespace List

variable {α β : Type}

theorem eq_append_of_getElem? {xs : List α} {k : Nat} {a : α} (h : xs[k]? = some a) :
    ∃ before after, xs = before ++ a :: after ∧ before.length = k := by
  obtain ⟨hk, rfl⟩ := getElem?_eq_some_iff.1 h
  refine ⟨xs.take k, xs.drop (k + 1), ?_, ?_⟩
  · rw [getElem_cons_drop, take_append_drop]
  · rw [length_take, Nat.min_eq_left (Nat.le_of_lt hk)]

theorem dropPrefix?_eq_some [DecidableEq α] {xs start rest : List α} :
    xs.dropPrefix? start = some rest ↔ xs = start ++ rest := by
  simp [dropPrefix?_eq_some_iff]

theorem dropWhile_append_of_ne_nil {p : α → Bool} {xs : List α} (h : xs.dropWhile p ≠ [])
    (ys : List α) : (xs ++ ys).dropWhile p = xs.dropWhile p ++ ys := by
  rw [dropWhile_append, if_neg (by simpa using h)]

theorem forall_prefix_cons {a : α} {xs : List α} {P : List α → Prop} :
    (∀ start, start <+: a :: xs → P start) ↔ P [] ∧ ∀ start, start <+: xs → P (a :: start) := by
  simp only [prefix_cons_iff]
  grind

/-- The first pieces of a fixed length, put together. -/
theorem flatMap_pieces (xs : List α) (length count : Nat) :
    (range count).flatMap (fun i => (xs.drop (i * length)).take length) =
      xs.take (count * length) := by
  induction count with
  | zero => simp
  | succ count ih =>
    rw [range_succ, flatMap_append, ih, Nat.succ_mul, take_add]
    simp

/-- What is new at the end of a list stands there only. -/
theorem getElem?_concat_iff {xs : List α} {a : α} (h : a ∉ xs) (j : Nat) :
    (xs ++ [a])[j]? = some a ↔ j = xs.length := by
  constructor
  · intro hj
    have hbound := (getElem?_eq_some_iff.1 hj).1
    rw [length_append, length_singleton] at hbound
    rcases Nat.lt_succ_iff_lt_or_eq.1 hbound with hlt | heq
    · rw [getElem?_append_left hlt] at hj
      exact absurd (mem_of_getElem? hj) h
    · exact heq
  · intro hj
    rw [hj, getElem?_concat_length]

theorem mapM_eq_some_iff {f : α → Option β} {xs : List α} {ys : List β} :
    xs.mapM f = some ys ↔ xs.map f = ys.map some := by
  induction xs generalizing ys with
  | nil => cases ys <;> simp
  | cons x xs ih =>
    rw [mapM_cons, map_cons]
    constructor
    · intro h
      obtain ⟨y, hy, h⟩ := Option.bind_eq_some_iff.1 h
      obtain ⟨rest, hrest, h⟩ := Option.bind_eq_some_iff.1 h
      rw [hy, ih.1 hrest, ← Option.some.inj h, map_cons]
    · intro h
      obtain ⟨y, rest, rfl, hy, hrest⟩ := map_eq_cons_iff.1 h.symm
      rw [← hy, ih.2 hrest.symm]
      rfl

/-- A partial function has a value for a list just if it has one for each element. -/
theorem exists_mapM_eq_some_iff {f : α → Option β} {xs : List α} :
    (∃ ys, xs.mapM f = some ys) ↔ ∀ x ∈ xs, ∃ y, f x = some y := by
  constructor
  · rintro ⟨ys, h⟩ x hx
    have hmem : f x ∈ ys.map some := mapM_eq_some_iff.1 h ▸ mem_map_of_mem hx
    obtain ⟨y, -, hy⟩ := mem_map.1 hmem
    exact ⟨y, hy.symm⟩
  · intro h
    induction xs with
    | nil => exact ⟨[], rfl⟩
    | cons x xs ih =>
      obtain ⟨y, hy⟩ := h x mem_cons_self
      obtain ⟨ys, hys⟩ := ih fun x' hx' => h x' (mem_cons_of_mem _ hx')
      exact ⟨y :: ys, by rw [mapM_cons, hy, hys]; rfl⟩

/-- Elements of lists that have nothing in common belong to one of the lists. -/
theorem existsUnique_of_nodup_flatten {lists : List (List α)} (h : lists.flatten.Nodup) {a : α}
    (ha : a ∈ lists.flatten) : ∃! i : Nat, ∃ list, lists[i]? = some list ∧ a ∈ list := by
  obtain ⟨list, hlist, hmem⟩ := mem_flatten.1 ha
  obtain ⟨i, hi⟩ := mem_iff_getElem?.1 hlist
  have hdisjoint := (nodup_flatten.1 h).2
  have hapart : ∀ {m n : Nat} {xs ys : List α}, m < n → lists[m]? = some xs →
      lists[n]? = some ys → a ∈ xs → a ∉ ys := by
    intro m n xs ys hlt hxs hys
    obtain ⟨hm, rfl⟩ := getElem?_eq_some_iff.1 hxs
    obtain ⟨hn, rfl⟩ := getElem?_eq_some_iff.1 hys
    exact fun hx hy => pairwise_iff_getElem.1 hdisjoint m n hm hn hlt hx hy
  refine ⟨i, ⟨list, hi, hmem⟩, ?_⟩
  rintro j ⟨other, hj, hother⟩
  rcases Nat.lt_trichotomy j i with hlt | heq | hlt
  · exact absurd hmem (hapart hlt hj hi hother)
  · exact heq
  · exact absurd hother (hapart hlt hi hj hmem)

end List
