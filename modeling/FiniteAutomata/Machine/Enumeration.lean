/-
  FiniteAutomata.Machine.Enumeration

  Listing the texts that a machine accepts. The search goes through the symbols on offer in
  ascending order and adds a text whenever a position accepts, before it goes further. It
  stops where the text has reached the length bound; a symbol of several code points may
  carry a text beyond the bound.

  A machine may offer the empty symbol for ever, so the search also has a bound on its
  depth. `firstTexts` draws only as many texts as asked for; `firstTexts_toList` says that
  these are the first of all the texts.
-/
import FiniteAutomata.Machine.Basic

namespace FiniteAutomata

namespace Machine

variable {σ : Type}

/-- The text read so far, if the position accepts it. -/
def textHere (m : Machine σ) (s : σ) (sofar : Text) : List Text :=
  if m.isFinal s then [sofar] else []

/-- All texts found from a position in at most `depth` further symbols, where `sofar` was
    read on the way there. -/
def textsFrom (m : Machine σ) (maxlen : Int) (depth : Nat) (s : σ) (sofar : Text) : List Text :=
  m.textHere s sofar ++
    if maxlen ≤ sofar.length then []
    else match depth with
      | 0 => []
      | depth + 1 => (m.labels s).toList.flatMap fun l =>
          match m.next s (.text l) with
          | some t => m.textsFrom maxlen depth t (sofar ++ l)
          | none => []

/-- Adds the texts found from a position to those `found` before, up to `limit` in all. -/
def firstTexts (m : Machine σ) (maxlen : Int) (limit depth : Nat) (s : σ) (sofar : Text)
    (found : Array Text) : Array Text :=
  if limit ≤ found.size then found
  else
    if maxlen ≤ sofar.length then found ++ m.textHere s sofar
    else match depth with
      | 0 => found ++ m.textHere s sofar
      | depth + 1 => (m.labels s).toList.foldl (fun found l =>
          if limit ≤ found.size then found
          else match m.next s (.text l) with
            | some t => m.firstTexts maxlen limit depth t (sofar ++ l) found
            | none => found) (found ++ m.textHere s sofar)

/-- A depth within which no text is missed when at most `silent` empty symbols can be read
    between two others. -/
def depthFor (maxlen : Int) (silent : Nat) (sofar : Text) : Nat :=
  ((maxlen - sofar.length).toNat + 1) * (silent + 1)

/-- All texts that begin with `sofar`, go on with what is accepted from a position, and stop
    at the length bound. -/
def texts (m : Machine σ) (maxlen : Int) (silent : Nat) (s : σ) (sofar : Text) : List Text :=
  m.textsFrom maxlen (depthFor maxlen silent sofar) s sofar

/-- The first texts, at most `limit` of them. -/
def takeTexts (m : Machine σ) (maxlen : Int) (silent limit : Nat) (s : σ) (sofar : Text) :
    List Text :=
  (m.firstTexts maxlen limit (depthFor maxlen silent sofar) s sofar #[]).toList

/-! ## Drawing few texts draws the first ones -/

theorem take_append_take {α : Type} (n : Nat) (a b : List α) :
    (a.take n ++ b).take n = (a ++ b).take n := by
  have rest : n - min n a.length = n - a.length := by omega
  simp [List.take_append, List.take_take, rest]

/-- Drawing from several sources in turn draws from the sources put together. -/
theorem foldl_take {α β : Type} (limit : Nat) (draw : Array α → β → Array α)
    (source : β → List α) (l : List β)
    (hdraw : ∀ b ∈ l, ∀ found : Array α, found.size ≤ limit →
      (draw found b).toList = (found.toList ++ source b).take limit)
    (found : Array α) (h : found.size ≤ limit) :
    (l.foldl draw found).toList = (found.toList ++ l.flatMap source).take limit := by
  induction l generalizing found with
  | nil => simp [List.take_of_length_le (by simpa using h : found.toList.length ≤ limit)]
  | cons b l ih =>
    have hb := hdraw b (by simp) found h
    have size : (draw found b).size ≤ limit := by
      rw [← Array.length_toList, hb]
      simp only [List.length_take]
      omega
    rw [List.foldl_cons, ih (fun c hc => hdraw c (List.mem_cons_of_mem b hc)) _ size, hb,
      List.flatMap_cons, ← List.append_assoc, take_append_take]

theorem take_full {α : Type} {limit : Nat} {found : Array α} (full : limit ≤ found.size)
    (h : found.size ≤ limit) (more : List α) :
    found.toList = (found.toList ++ more).take limit := by
  have size : found.toList.length = limit := by simp; omega
  rw [List.take_append, size, Nat.sub_self, List.take_zero, List.append_nil,
    List.take_of_length_le (Nat.le_of_eq size)]

theorem textHere_length_le (m : Machine σ) (s : σ) (sofar : Text) :
    (m.textHere s sofar).length ≤ 1 := by
  unfold textHere
  split <;> simp

theorem firstTexts_toList (m : Machine σ) (maxlen : Int) (limit depth : Nat) (s : σ)
    (sofar : Text) (found : Array Text) (h : found.size ≤ limit) :
    (m.firstTexts maxlen limit depth s sofar found).toList =
      (found.toList ++ m.textsFrom maxlen depth s sofar).take limit := by
  have here := m.textHere_length_le s sofar
  induction depth generalizing s sofar found with
  | zero =>
    rw [firstTexts, textsFrom]
    split
    · exact take_full ‹_› h _
    · simp only [ite_self, List.append_nil]
      rw [List.take_of_length_le (by simp; omega)]
      simp
  | succ depth ih =>
    rw [firstTexts, textsFrom]
    split
    · exact take_full ‹_› h _
    · split
      · rw [List.append_nil, List.take_of_length_le (by simp; omega)]
        simp
      · have join : found.toList ++ m.textHere s sofar = (found ++ m.textHere s sofar).toList := by
          simp
        have size : (found ++ m.textHere s sofar).size ≤ limit := by
          rw [← Array.length_toList, ← join, List.length_append, Array.length_toList]
          omega
        rw [← List.append_assoc, join]
        refine foldl_take limit _ _ _ (fun l _ drawn hd => ?_) _ size
        split
        · exact take_full ‹_› hd _
        · cases m.next s (.text l) with
          | none => simp [List.take_of_length_le (by simpa using hd : drawn.toList.length ≤ limit)]
          | some t => exact ih t (sofar ++ l) drawn hd (m.textHere_length_le _ _)

/-- The first texts are the beginning of all the texts. -/
theorem takeTexts_eq_take (m : Machine σ) (maxlen : Int) (silent limit : Nat) (s : σ)
    (sofar : Text) :
    m.takeTexts maxlen silent limit s sofar = (m.texts maxlen silent s sofar).take limit := by
  simp [takeTexts, texts, firstTexts_toList]

end Machine

end FiniteAutomata
