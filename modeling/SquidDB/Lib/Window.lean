import SquidDB.Lib.Checked

/-!
# Windows

A reader decodes a number of consecutive elements of what an object contains,
and faults when there are not as many.  It stays within a range that begins
with its window exactly when the range is as wide, provided that the decoding
depends on every element.
-/

namespace Window

variable {ρ α β : Type}

/-- The elements from an offset on, as many as the window is wide. -/
def window (offset width : ℕ) (xs : List β) : List β :=
  (xs.drop offset).take width

/-- A reader decodes the window or faults. -/
structure IsReader (content : ρ → List β) (read : ρ → Checked α)
    (offset width : ℕ) (decode : List β → α) : Prop where
  inside : ∀ r, offset + width ≤ (content r).length →
    read r = .ok (decode (window offset width (content r)))
  outside : ∀ r, (content r).length < offset + width →
    ∃ fault, read r = .error fault

/-- On objects of a given length the reader does not fault, and its value
depends on nothing outside the range. -/
def StaysWithin (content : ρ → List β) (read : ρ → Checked α)
    (total offset size : ℕ) : Prop :=
  ∀ r, (content r).length = total →
    (∃ value, read r = .ok value) ∧
      ∀ r', (content r').length = total →
        (∀ i, offset ≤ i → i < offset + size →
          (content r')[i]? = (content r)[i]?) →
          read r' = read r

/-- The decoding depends on every element. -/
def Sensitive (decode : List β → α) (width : ℕ) : Prop :=
  ∃ zero one, ∀ k < width, decode ((List.replicate width zero).set k one) ≠
    decode (List.replicate width zero)

variable {content : ρ → List β} {read : ρ → Checked α}
  {decode : List β → α} {offset width size total : ℕ}

theorem window_congr {xs ys : List β}
    (h : ∀ i, offset ≤ i → i < offset + width → ys[i]? = xs[i]?) :
    window offset width ys = window offset width xs := by
  apply List.ext_getElem?
  intro i
  rw [window, window, List.getElem?_take, List.getElem?_take]
  split
  · rw [List.getElem?_drop, List.getElem?_drop]
    exact h (offset + i) (by omega) (by omega)
  · rfl

theorem window_replicate {a : β} (h : offset + width ≤ total) :
    window offset width (List.replicate total a) =
      List.replicate width a := by
  rw [window, List.drop_replicate, List.take_replicate]
  congr 1
  omega

theorem window_set {xs : List β} {b : β} {k : ℕ} :
    window offset width (xs.set (offset + k) b) =
      (window offset width xs).set k b := by
  rw [window, window, List.drop_set, if_neg (by omega), List.take_set,
    Nat.add_sub_cancel_left]

theorem IsReader.staysWithin
    (hreader : IsReader content read offset width decode)
    (hfits : offset + size ≤ total) (hwidth : width ≤ size) :
    StaysWithin content read total offset size := by
  intro r hr
  refine ⟨⟨_, hreader.inside r (by omega)⟩, ?_⟩
  intro r' hr' hagree
  have hwindow : window offset width (content r') =
      window offset width (content r) :=
    window_congr fun i hle hlt => hagree i hle (by omega)
  rw [hreader.inside r (by omega), hreader.inside r' (by omega), hwindow]

/-- A reader stays within a range exactly when its window is covered. -/
theorem IsReader.staysWithin_iff
    (hreader : IsReader content read offset width decode)
    (hcontent : Function.Surjective content)
    (hsensitive : Sensitive decode width) (hfits : offset + size ≤ total) :
    StaysWithin content read total offset size ↔ width ≤ size := by
  refine ⟨?_, hreader.staysWithin hfits⟩
  intro hstays
  by_contra hshort
  obtain ⟨zero, one, hdepends⟩ := hsensitive
  obtain ⟨r, hr⟩ := hcontent (List.replicate total zero)
  obtain ⟨⟨value, hvalue⟩, hother⟩ := hstays r (by simp [hr])
  by_cases hend : offset + width ≤ total
  · obtain ⟨r', hr'⟩ :=
      hcontent ((List.replicate total zero).set (offset + size) one)
    have hequal := hother r' (by simp [hr']) fun i _ hi => by
      rw [hr, hr', List.getElem?_set_ne (by omega)]
    rw [hreader.inside r (by simp [hr, hend]),
      hreader.inside r' (by simp [hr', hend]), hr, hr', window_set,
      window_replicate hend] at hequal
    exact hdepends size (by omega) (Except.ok.inj hequal)
  · obtain ⟨fault, hfault⟩ := hreader.outside r (by
      rw [hr, List.length_replicate]
      omega)
    rw [hfault] at hvalue
    cases hvalue

/-- What is done with the value does not matter, as long as nothing is
lost. -/
theorem IsReader.map {γ : Type} (f : α → γ)
    (hreader : IsReader content read offset width decode) :
    IsReader content (fun r => (read r).map f) offset width (f ∘ decode) := by
  constructor
  · intro r hr
    rw [hreader.inside r hr]
    rfl
  · intro r hr
    obtain ⟨fault, hfault⟩ := hreader.outside r hr
    exact ⟨fault, by rw [hfault]; rfl⟩

theorem Sensitive.map {γ : Type} {f : α → γ} (hf : Function.Injective f)
    (hsensitive : Sensitive decode width) : Sensitive (f ∘ decode) width := by
  obtain ⟨zero, one, hdepends⟩ := hsensitive
  exact ⟨zero, one, fun k hk hequal => hdepends k hk (hf hequal)⟩

end Window
