import Jkl.Http.ContentTypeGrammar

/-! The scan over a header value that follows the grammar, turn by turn. -/
namespace Jkl.Http

open Loop (Turn)
open Search (headIn indexFrom findFrom_at findFrom_end indexFrom_at indexFrom_end take_indexFrom)
open Uri (Byte Bytes lit toLower)

variable {str t a b w rest : Bytes} {c : Byte} {i k n : ℕ} {o : ContentType} {next : Option ℕ}
  {p : Param} {ps : List Param} {v : Bytes}

theorem skipLws_at (hs : str = t ++ a ++ c :: b) (hi : i = t.length)
    (ha : ∀ c ∈ a, isHttpLws c = true) (hc : isHttpLws c = false) :
    skipLws str i = some (i + a.length) :=
  findFrom_at hs hi (fun x hx => by simp [ha x hx]) (by simp [hc])

theorem skipLws_end (hs : str = t ++ a) (hi : i = t.length) (ha : ∀ c ∈ a, isHttpLws c = true) :
    skipLws str i = none :=
  findFrom_end hs hi fun x hx => by simp [ha x hx]

theorem nameEnd_at (hs : str = t ++ a ++ c :: b) (hi : i = t.length)
    (ha : ∀ c ∈ a, c ≠ ';' ∧ c ≠ '=') (hc : c = ';' ∨ c = '=') :
    Search.findFrom (headIn fun c : Byte => c = ';' || c = '=') str i = some (i + a.length) :=
  findFrom_at hs hi (fun x hx => by simp [ha x hx]) (by simpa using hc)

theorem nameEnd_end (hs : str = t ++ a) (hi : i = t.length) (ha : ∀ c ∈ a, c ≠ ';' ∧ c ≠ '=') :
    Search.findFrom (headIn fun c : Byte => c = ';' || c = '=') str i = none :=
  findFrom_end hs hi fun x hx => by simp [ha x hx]

/-- What a turn leads on to. -/
def resume : Option ℕ → ContentType → Turn (ℕ × ContentType) ContentType
  | none, o => .done o
  | some i, o => .next (i, o)

/-- No character of a token ends a part of the value. -/
theorem not_stop_of_token : ∀ c : Byte, isTokenChar c = true →
    isHttpLws c = false ∧ c ≠ ';' ∧ c ≠ '=' ∧ c ≠ '"' ∧ c ≠ '/' ∧ c ∉ lit " \t;(" :=
  Uri.forall_byte (by decide +kernel)

/-- The first character of a value. -/
theorem value_head {v : Value} : ∃ c w, v.text = c :: w ∧ isHttpLws c = false ∧ c ≠ ';' := by
  cases v with
  | token t =>
    obtain ⟨c, w, hw⟩ := List.exists_cons_of_ne_nil t.ne
    obtain ⟨hl, hs, -⟩ := not_stop_of_token c (t.ok c (by simp [hw]))
    exact ⟨c, w, hw, hl, hs⟩
  | quoted ps => exact ⟨'"', _, rfl, by decide, by decide⟩

/-- The turn at a parameter. -/
theorem param_text (hs : str = t ++ (';' : Byte) :: (p.body ++ rest))
    (hi : i = t.length + 1 + p.after.length + p.name.chars.length)
    (hv : paramValue str (i + 1) = .ok (v, next)) :
    param str t.length o = .ok (resume next (o.assign p.name.chars v)) := by
  obtain ⟨n, ns, hn⟩ := List.exists_cons_of_ne_nil p.name.ne
  obtain ⟨d, w, hw, hd, hsemi⟩ := @value_head p.value
  have hname : ∀ c ∈ p.name.chars, isHttpLws c = false ∧ c ≠ ';' ∧ c ≠ '=' := fun c hc =>
    have h := not_stop_of_token c (p.name.ok c hc)
    ⟨h.1, h.2.1, h.2.2.1⟩
  have hskip : skipLws str (t.length + 1) = some (t.length + 1 + p.after.length) := by
    have hs' : str = (t ++ [(';' : Byte)]) ++ p.after ++
        n :: (ns ++ ('=' : Byte) :: p.value.text ++ rest) := by
      simp [hs, Param.body, hn]
    exact skipLws_at hs' (by simp) p.after_blank (hname n (by simp [hn])).1
  have heq : str = (t ++ (';' : Byte) :: p.after) ++ p.name.chars ++
      ('=' : Byte) :: (p.value.text ++ rest) := by
    simp [hs, Param.body]
  have hend : Search.findFrom (headIn fun c : Byte => c = ';' || c = '=') str
      (t.length + 1 + p.after.length) = some i := by
    rw [hi]
    exact nameEnd_at heq (by simp; omega) (fun c hc => (hname c hc).2) (.inr rfl)
  have hget : View.get str i = .ok ('=' : Byte) := View.get_at heq (by simp; omega)
  have hskip' : skipLws str (i + 1) = some (i + 1) := by
    have hs' : str = (t ++ (';' : Byte) :: p.after ++ p.name.chars ++ [('=' : Byte)]) ++ [] ++
        d :: (w ++ rest) := by
      simp [heq, hw]
    exact skipLws_at hs' (by simp; omega) (by simp) hd
  have hget' : View.get str (i + 1) = .ok d := by
    have hs' : str = (t ++ (';' : Byte) :: p.after ++ p.name.chars ++ [('=' : Byte)]) ++
        d :: (w ++ rest) := by
      simp [heq, hw]
    exact View.get_at hs' (by simp; omega)
  have hsub : View.substr str (t.length + 1 + p.after.length)
      (some (i - (t.length + 1 + p.after.length))) = .ok p.name.chars :=
    View.substr_at heq (by simp; omega) (by omega)
  have hne : ('=' : Byte) ≠ ';' := by decide
  rw [param, View.get_at hs rfl, View.ok_bind, View.assert_of_pos rfl, View.ok_bind,
    hskip]
  simp only [hend, hget, View.ok_bind, if_neg hne, hsub, hskip', hget', if_neg hsemi, hv]
  cases next <;> rfl

/-- The turn at a text without a `'='`: a name without a value, or nothing. -/
theorem skip_text (hs : str = t ++ (';' : Byte) :: (a ++ b)) (ha : ∀ c ∈ a, c ≠ ';' ∧ c ≠ '=')
    (hb : ∀ c, b.head? = some c → c = ';') :
    param str t.length o = .ok (resume (indexFrom (';' : Byte) str (t.length + 1)) o) := by
  have hcut : a.takeWhile isHttpLws ++ a.dropWhile isHttpLws = a := List.takeWhile_append_dropWhile
  have hdrop := List.head?_dropWhile_not isHttpLws a
  generalize a.dropWhile isHttpLws = a' at hcut hdrop
  have hblank : ∀ c ∈ a.takeWhile isHttpLws, isHttpLws c = true := fun c hc =>
    List.mem_takeWhile_imp hc
  generalize a.takeWhile isHttpLws = ws at hcut hblank
  subst hcut
  have hrest : ∀ c ∈ a', c ≠ ';' ∧ c ≠ '=' := fun c hc => ha c (List.mem_append_right ws hc)
  have hsemi : (';' : Byte) ∉ ws ++ a' := fun hm => (ha _ hm).1 rfl
  have hs1 : str = (t ++ [(';' : Byte)]) ++ ws ++ (a' ++ b) := by
    simp [hs]
  have hs2 : str = (t ++ (';' : Byte) :: ws) ++ a' ++ b := by
    simp [hs]
  have hs3 : str = (t ++ [(';' : Byte)]) ++ (ws ++ a') ++ b := by
    simp [hs]
  rw [param, View.get_at hs rfl, View.ok_bind, View.assert_of_pos rfl, View.ok_bind]
  cases b with
  | nil =>
    rw [List.append_nil] at hs1 hs2 hs3
    rw [indexFrom_end hs3 (by simp) hsemi]
    cases a' with
    | nil =>
      rw [List.append_nil] at hs1
      rw [skipLws_end hs1 (by simp) hblank]
      rfl
    | cons d w =>
      have hend := nameEnd_end (i := t.length + 1 + ws.length) hs2 (by simp; omega) hrest
      rw [skipLws_at hs1 (by simp) hblank (by simpa using hdrop)]
      simp only [hend]
      rfl
  | cons c b =>
    obtain rfl := hb c rfl
    have hend := nameEnd_at (i := t.length + 1 + ws.length) hs2 (by simp; omega) hrest (.inl rfl)
    have hget := View.get_at (i := t.length + 1 + ws.length + a'.length) hs2 (by simp; omega)
    rw [indexFrom_at hs3 (i := t.length + 1) (by simp) hsemi, List.length_append, ← Nat.add_assoc]
    have hskip : skipLws str (t.length + 1) = some (t.length + 1 + ws.length) := by
      cases a' with
      | nil => exact skipLws_at hs1 (by simp) hblank (by decide)
      | cons d w => exact skipLws_at hs1 (by simp) hblank (by simpa using hdrop)
    rw [hskip]
    simp only [hend, hget, View.ok_bind, if_true]
    rfl

/-- What the loop makes of an object, when it goes on at `next` or ends there. -/
def Goes (str : Bytes) (next : Option ℕ) (o t : ContentType) : Prop :=
  match next with
  | none => t = o
  | some i => Loop.Ends (turn str) (i, o) (.ok t)

variable {u o' : ContentType}

theorem goes_of_param (h : param str i o = .ok (resume next o')) (hg : Goes str next o' u) :
    Goes str (some i) o u := by
  cases next with
  | none =>
    obtain rfl : u = o' := hg
    exact .done (by simp only [turn, h, resume, View.turn])
  | some j =>
    have hturn : turn str (i, o) = .next (j, o') := by
      simp only [turn, h, resume, View.turn]
    exact .next hturn hg

theorem indexFrom_self (hs : str = t ++ c :: b) (hi : i = t.length) : indexFrom c str i = some i :=
  indexFrom_at (a := []) (b := b) (by simp [hs]) hi (by simp)

theorem indexFrom_next {d : Byte} (hs : str = t ++ d :: b) (hi : i = t.length) (hd : d ≠ c) :
    indexFrom c str i = indexFrom c str (i + 1) := by
  subst hs hi
  refine Search.findFrom_succ (by simp) ?_
  rw [List.drop_left, Search.headIn_cons]
  exact decide_eq_false hd

/-- Names without values are passed over, one turn for each. -/
theorem goes_skip (hs : str = t ++ a ++ rest) (ha : ¬(lit ";=").Sublist a)
    (hrest : ('=' : Byte) ∉ rest.takeWhile (· ≠ (';' : Byte)))
    (hg : Goes str (indexFrom (';' : Byte) str (t ++ a).length) o u) :
    Goes str (indexFrom (';' : Byte) str t.length) o u := by
  induction a generalizing t with
  | nil => rwa [List.append_nil] at hg
  | cons c a ih =>
    have hs' : str = (t ++ [c]) ++ a ++ rest := by simp [hs]
    have hnext := ih hs' (fun h => ha (h.cons c)) (by simpa using hg)
    rw [List.length_append, List.length_singleton] at hnext
    have hsc : str = t ++ c :: (a ++ rest) := by simp [hs]
    by_cases hc : c = ';'
    · subst hc
      have heq : ('=' : Byte) ∉ a := fun hm =>
        ha (List.Sublist.cons_cons _ (List.singleton_sublist.2 hm))
      rw [indexFrom_self hsc rfl]
      -- the name ends at the next `';'`, in `a` or in `rest`
      have hcut : (a ++ rest).takeWhile (· ≠ (';' : Byte)) ++
          (a ++ rest).dropWhile (· ≠ (';' : Byte)) = a ++ rest := List.takeWhile_append_dropWhile
      have hdrop := List.head?_dropWhile_not (fun x : Byte => decide (x ≠ ';')) (a ++ rest)
      rw [← hcut] at hsc
      refine goes_of_param (skip_text hsc (fun x hx => ⟨?_, ?_⟩) fun x hx => ?_) hnext
      · simpa using List.mem_takeWhile_imp hx
      · rintro rfl
        rw [List.takeWhile_append] at hx
        split_ifs at hx
        · exact (List.mem_append.1 hx).elim heq hrest
        · exact heq ((List.takeWhile_sublist _).subset hx)
      · rw [hx] at hdrop
        simpa using hdrop
    · rwa [indexFrom_next hsc rfl hc]

/-- In the text of parameters only blanks come before the first `';'`. -/
theorem blank_of_mem_takeWhile {c : Byte}
    (hc : c ∈ (ps.flatMap Param.text).takeWhile (· ≠ (';' : Byte))) : isHttpLws c = true := by
  cases ps with
  | nil => cases hc
  | cons p ps =>
    have hnot : ∀ x ∈ p.before, decide (x ≠ (';' : Byte)) = true := by
      intro x hx
      refine decide_eq_true ?_
      rintro rfl
      exact absurd (p.before_blank _ hx) (by decide)
    rw [List.flatMap_cons, Param.text, List.append_assoc, List.cons_append,
      List.takeWhile_append_of_pos hnot, List.takeWhile_cons_of_neg (by simp),
      List.append_nil] at hc
    exact p.before_blank c hc

theorem rdropWhile_append {a w : Bytes} (hw : ∀ c ∈ w, isHttpLws c = true) :
    (a ++ w).rdropWhile isHttpLws = a.rdropWhile isHttpLws := by
  induction w using List.reverseRecOn with
  | nil => rw [List.append_nil]
  | append_singleton w c ih =>
    rw [← List.append_assoc, List.rdropWhile_concat_pos _ _ _ (hw c (by simp))]
    exact ih fun c hc => hw c (by simp [hc])

theorem tokenValue_text {tok : Token} (hs : str = t ++ (tok.chars ++ ps.flatMap Param.text))
    (hi : i = t.length) : paramValue str i = .ok (tok.chars, indexFrom (';' : Byte) str i) := by
  obtain ⟨c, w, hw⟩ := List.exists_cons_of_ne_nil tok.ne
  have hok : ∀ c ∈ tok.chars, isHttpLws c = false ∧ c ≠ ';' ∧ c ≠ '"' := fun c hc =>
    have h := not_stop_of_token c (tok.ok c hc)
    ⟨h.1, h.2.1, h.2.2.2.1⟩
  have hget : View.get str i = .ok c :=
    View.get_at (b := w ++ ps.flatMap Param.text) (by simp [hs, hw]) hi
  have htok : tok.chars.rdropWhile isHttpLws = tok.chars := by
    rw [List.rdropWhile_eq_self_iff]
    intro hne hl
    rw [(hok _ (List.getLast_mem hne)).1] at hl
    cases hl
  rw [paramValue, hget, View.ok_bind, if_pos (hok c (by simp [hw])).2.2,
    tokenValue_eq (by rw [hs, hi]; simp)]
  subst hs
  rw [take_indexFrom hi, List.takeWhile_append_of_pos (by simpa using fun c hc => (hok c hc).2.1),
    rdropWhile_append fun c hc => blank_of_mem_takeWhile hc, htok]

/-- The text of a quoted string is cut at its first double quote, which may be the closing one. -/
theorem quote_cut (raw : Bytes) : ∃ w, raw ++ [('"' : Byte)] =
    raw.takeWhile (· ≠ ('"' : Byte)) ++ ('"' : Byte) :: w := by
  have hcut : raw.takeWhile (· ≠ ('"' : Byte)) ++ raw.dropWhile (· ≠ ('"' : Byte)) = raw :=
    List.takeWhile_append_dropWhile
  have hdrop := List.head?_dropWhile_not (fun x : Byte => decide (x ≠ '"')) raw
  cases hd : raw.dropWhile (· ≠ ('"' : Byte)) with
  | nil =>
    rw [hd, List.append_nil] at hcut
    exact ⟨[], by rw [hcut]⟩
  | cons x w =>
    rw [hd] at hcut hdrop
    obtain rfl : x = '"' := by simpa using hdrop
    refine ⟨w ++ [('"' : Byte)], ?_⟩
    conv_lhs => rw [← hcut]
    simp

/-- A quoted string is read up to its first double quote, and the next `';'` is looked for from
there. -/
theorem quotedValue_text {qs : List Piece} {a w : Bytes}
    (ha : a = (qs.flatMap Piece.text).takeWhile (· ≠ ('"' : Byte)))
    (hs : str = t ++ ('"' : Byte) :: (a ++ ('"' : Byte) :: w)) (hi : i = t.length) :
    paramValue str i = .ok (Value.read (.quoted qs),
      indexFrom (';' : Byte) str (t ++ ('"' : Byte) :: a).length) := by
  have hget : str[i]? = some ('"' : Byte) := by simp [hs, hi]
  have hnot : ('"' : Byte) ∉ a := by
    rw [ha]
    exact fun hm => by simpa using List.mem_takeWhile_imp hm
  have hs' : str = (t ++ [('"' : Byte)]) ++ a ++ ('"' : Byte) :: w := by simp [hs]
  have hquote := indexFrom_at (i := i + 1) hs' (by simp [hi]) hnot
  have hend : i + 1 + a.length = (t ++ ('"' : Byte) :: a).length := by
    simp [hi]
    omega
  have hraw : (str.drop (i + 1)).take (i + 1 + a.length - (i + 1)) = a := by
    rw [hs', List.append_assoc, List.drop_left' (by simp [hi]), Nat.add_sub_cancel_left,
      List.take_left]
  rw [paramValue, View.get_of_eq hget, View.ok_bind, if_neg (not_not_intro rfl),
    quotedValue_eq hget, hquote, Option.getD_some, hraw, hend, Value.read, ← ha]
  rfl

theorem sublist_char {l : Bytes} {qs : List Piece} (hl : ('\\' : Byte) ∉ l)
    (h : l.Sublist (qs.flatMap Piece.text)) : l.Sublist (qs.map Piece.char) := by
  induction qs generalizing l with
  | nil => exact h
  | cons q qs ih =>
    cases q with
    | plain c hq hs =>
      rw [List.flatMap_cons, Piece.text, List.singleton_append, List.sublist_cons_iff] at h
      obtain h | ⟨r, rfl, h⟩ := h
      · exact (ih hl h).cons _
      · exact (ih (fun hm => hl (List.mem_cons_of_mem _ hm)) h).cons_cons _
    | pair c =>
      rw [List.flatMap_cons, Piece.text, List.cons_append, List.singleton_append,
        List.sublist_cons_iff] at h
      obtain h | ⟨r, rfl, h⟩ := h
      · rw [List.sublist_cons_iff] at h
        obtain h | ⟨r, rfl, h⟩ := h
        · exact (ih hl h).cons _
        · exact (ih (fun hm => hl (List.mem_cons_of_mem _ hm)) h).cons_cons _
      · exact absurd List.mem_cons_self hl

/-- Behind the first double quote of a string that does not leak, no `'='` follows a `';'`. -/
theorem not_sublist_of_not_leaks {qs : List Piece} {a w : Bytes}
    (h : ¬Value.Leaks (.quoted qs))
    (hw : qs.flatMap Piece.text ++ [('"' : Byte)] = a ++ ('"' : Byte) :: w) :
    ¬(lit ";=").Sublist (('"' : Byte) :: w) := by
  intro hsub
  have hsub : (lit ";=").Sublist w := by
    obtain hsub | ⟨r, hr, -⟩ := List.sublist_cons_iff.1 hsub
    · exact hsub
    · cases hr
  have hall : (lit "\";=").Sublist (qs.flatMap Piece.text ++ [('"' : Byte)]) := by
    rw [hw]
    exact (hsub.cons_cons _).trans (List.sublist_append_right _ _)
  obtain ⟨l, r, hlr, hl, hr⟩ := List.sublist_append_iff.1 hall
  cases r with
  | nil =>
    rw [List.append_nil] at hlr
    subst hlr
    exact h (sublist_char (by decide) hl)
  | cons x r =>
    -- the last of the three is not the closing quote
    have hx : x :: r = [('"' : Byte)] := hr.eq_of_length_le (by simp)
    rw [hx] at hlr
    have hlast := congrArg List.getLast? hlr
    rw [List.getLast?_concat] at hlast
    exact absurd hlast (by decide)

/-- A value that does not leak: what is left of it when the next `';'` is looked for has no `'='`
behind a `';'`. -/
theorem paramValue_text {v : Value} (hv : ¬v.Leaks)
    (hs : str = t ++ v.text ++ ps.flatMap Param.text) (hi : i = t.length) :
    ∃ u a, v.text = u ++ a ∧ ¬(lit ";=").Sublist a ∧
      paramValue str i = .ok (v.read, indexFrom (';' : Byte) str (t ++ u).length) := by
  cases v with
  | token tok =>
    refine ⟨[], tok.chars, rfl, fun h => ?_, ?_⟩
    · exact (not_stop_of_token ';' (tok.ok _ (h.subset (by decide)))).2.1 rfl
    · rw [List.append_nil, tokenValue_text (hs.trans (List.append_assoc ..)) hi, hi]
      rfl
  | quoted qs =>
    obtain ⟨w, hw⟩ := quote_cut (qs.flatMap Piece.text)
    have htext : Value.text (.quoted qs) = ('"' : Byte) ::
        (qs.flatMap Piece.text).takeWhile (· ≠ ('"' : Byte)) ++ ('"' : Byte) :: w := by
      rw [Value.text, hw]
      rfl
    refine ⟨_, _, htext, not_sublist_of_not_leaks hv hw, ?_⟩
    exact quotedValue_text (w := w ++ ps.flatMap Param.text) rfl (by simp [hs, htext]) hi

/-- The loop over the parameters, by induction along them. -/
theorem goes_params (hps : ∀ p ∈ ps, ¬p.value.Leaks) (hs : str = t ++ ps.flatMap Param.text) :
    Goes str (indexFrom (';' : Byte) str t.length) o (readAll ps o) := by
  induction ps generalizing t o with
  | nil =>
    rw [indexFrom_end (a := []) hs rfl (by simp)]
    rfl
  | cons p ps ih =>
    have hsemi : (';' : Byte) ∉ p.before := fun hm => absurd (p.before_blank _ hm) (by decide)
    have hs' : str = (t ++ p.before) ++ (';' : Byte) :: (p.body ++ ps.flatMap Param.text) := by
      simp [hs, Param.text]
    -- where the value starts
    set t' := t ++ p.before ++ (';' : Byte) :: p.after ++ p.name.chars ++ [('=' : Byte)] with ht'
    have hpos : (t ++ p.before).length + 1 + p.after.length + p.name.chars.length + 1 =
        t'.length := by
      simp [ht']
      omega
    have hvs : str = t' ++ p.value.text ++ ps.flatMap Param.text := by
      simp [hs', ht', Param.body]
    obtain ⟨u, a, hua, ha, hval⟩ := paramValue_text (hps p List.mem_cons_self) hvs hpos
    rw [hua, ← List.append_assoc] at hvs
    have hnext := @ih (t' ++ u ++ a) (o.assign p.name.chars p.value.read)
      (fun q hq => hps q (List.mem_cons_of_mem p hq)) hvs
    rw [indexFrom_at hs' rfl hsemi, ← List.length_append]
    refine goes_of_param (param_text hs' rfl hval) (goes_skip hvs ha ?_ hnext)
    exact fun hm => absurd (blank_of_mem_takeWhile hm) (by decide)

/-! In front of the loop. -/

variable {h : HeaderValue}

theorem mime_ne_any : h.mime ≠ lit "*/*" := by
  intro heq
  have hlen := congrArg List.length heq
  have htype := List.length_pos_iff.2 h.type.ne
  have hsub := List.length_pos_iff.2 h.subtype.ne
  rw [HeaderValue.mime, List.length_append, List.length_cons] at hlen
  have hthree : (lit "*/*").length = 3 := rfl
  have heq' : h.type.chars ++ ('/' : Byte) :: h.subtype.chars =
      lit "*" ++ ('/' : Byte) :: lit "*" := heq
  obtain ⟨ht, hs⟩ := List.append_inj heq' (by
    have hone : (lit "*").length = 1 := rfl
    omega)
  exact h.not_any ⟨ht, (List.cons.inj hs).2⟩

theorem isMime_mime : isMime h.mime = true := by
  have hslash : ('/' : Byte) ∉ h.type.chars := fun hm =>
    (not_stop_of_token _ (h.type.ok _ hm)).2.2.2.2.1 rfl
  have hq : indexFrom ('/' : Byte) h.mime 0 = some h.type.chars.length := by
    have hat : indexFrom ('/' : Byte) h.mime 0 = some (0 + h.type.chars.length) :=
      indexFrom_at (t := []) rfl rfl hslash
    rwa [Nat.zero_add] at hat
  have hend : h.type.chars.length + 1 ≠ h.mime.length := by
    have hsub := List.length_pos_iff.2 h.subtype.ne
    rw [HeaderValue.mime, List.length_append, List.length_cons]
    omega
  simp only [isMime, hq, ne_eq, List.length_eq_zero_iff, h.type.ne, hend, mime_ne_any,
    not_false_eq_true, decide_true, Bool.and_true]

theorem mem_of_blank : ∀ c : Byte, isHttpLws c = true → c ∈ lit " \t;(" :=
  Uri.forall_byte (by decide +kernel)

/-- What follows the type starts with one of the characters that end it. -/
theorem head_params (hc : (ps.flatMap Param.text).head? = some c) : c ∈ lit " \t;(" := by
  cases ps with
  | nil => cases hc
  | cons p ps =>
    rw [List.flatMap_cons, Param.text] at hc
    cases hb : p.before with
    | nil =>
      rw [hb] at hc
      cases hc
      decide
    | cons d w =>
      have hd := p.before_blank d (by simp [hb])
      rw [hb] at hc
      cases hc
      exact mem_of_blank _ hd

theorem parseMime_text : parseMime h.text o =
    .ok (resume (indexFrom (';' : Byte) h.text h.mime.length)
      { o with mime := h.mime.map toLower }) := by
  obtain ⟨c, w, hw⟩ := List.exists_cons_of_ne_nil h.type.ne
  have hskip : skipLws h.text 0 = some 0 :=
    skipLws_at (t := []) (a := []) (c := c) (b := w ++ ('/' : Byte) :: h.subtype.chars ++ _)
      (by simp [HeaderValue.text, HeaderValue.mime, hw]; rfl) rfl (by simp)
      (not_stop_of_token c (h.type.ok c (by simp [hw]))).1
  have hmime : ∀ c ∈ h.mime, decide (c ∈ lit " \t;(") = false := by
    intro c hc
    obtain hc | hc := List.mem_append.1 hc
    · exact decide_eq_false (not_stop_of_token c (h.type.ok c hc)).2.2.2.2.2
    · obtain rfl | hc := List.mem_cons.1 hc
      · decide
      · exact decide_eq_false (not_stop_of_token c (h.subtype.ok c hc)).2.2.2.2.2
  have hmv : View.substr h.text 0 (some h.mime.length) = .ok h.mime :=
    View.substr_at (t := []) rfl rfl rfl
  rw [parseMime, hskip]
  cases hr : h.params.flatMap Param.text with
  | nil =>
    have htext : h.text = h.mime := by rw [HeaderValue.text, hr, List.append_nil]
    have hend : Search.findFrom (headIn fun c => decide (c ∈ lit " \t;(")) h.text 0 = none := by
      rw [htext]
      exact findFrom_end (t := []) rfl rfl hmime
    have hall : View.substr h.text 0 none = .ok h.mime := by
      rw [htext]
      exact View.substr_rest (t := [])
    have hsemi : indexFrom (';' : Byte) h.text h.mime.length = none :=
      indexFrom_end (a := []) (by rw [htext, List.append_nil]) rfl (by simp)
    simp only [hend, Option.map_none, hall, View.ok_bind, isMime_mime, if_true, Option.bind_none,
      hsemi]
    rfl
  | cons d r =>
    have hd := @head_params d h.params (by rw [hr]; rfl)
    have hend : Search.findFrom (headIn fun c => decide (c ∈ lit " \t;(")) h.text 0 =
        some h.mime.length := by
      rw [HeaderValue.text, hr, ← Nat.zero_add h.mime.length]
      exact findFrom_at (t := []) rfl rfl hmime (decide_eq_true hd)
    simp only [hend, Option.map_some, Nat.sub_zero, hmv, View.ok_bind, isMime_mime, if_true,
      Option.bind_some]
    cases indexFrom (';' : Byte) h.text h.mime.length <;> rfl

/-- A header value without leaks. -/
theorem parse_text (hl : ∀ p ∈ h.params, ¬p.value.Leaks) : parse o h.text =
    some (.ok (readAll h.params { o with mime := h.mime.map toLower })) := by
  obtain ⟨t, ht⟩ := parse_total o h.text
  have hgoes := @goes_params h.text h.mime { o with mime := h.mime.map toLower } h.params hl rfl
  rw [ht]
  rw [parse, parseMime_text] at ht
  cases hi : indexFrom (';' : Byte) h.text h.mime.length with
  | none =>
    rw [hi] at ht hgoes
    rw [← ht]
    exact congrArg _ (congrArg _ hgoes.symm)
  | some i =>
    rw [hi] at ht hgoes
    exact congrArg _ ((Loop.ends_of_run ht).unique hgoes)

namespace HeaderValue

variable (h o)

/-- Some quoted string leaks. -/
def Leaks : Prop := ∃ p ∈ h.params, p.value.Leaks

/-- The parameters that the object is set from are plain. -/
def Plain : Prop :=
  (o.charset = [] → PlainFirst (lit "charset") h.params) ∧
    (o.boundary = [] → PlainFirst (lit "boundary") h.params)

/-- The header value is parsed, and sets what its parameters say. -/
def Parses : Prop := ∃ t, parse o h.text = some (.ok t) ∧ Sets o h.params t

end HeaderValue

/-- An object is set from plain parameters when no quoted string leaks. Where none does, it is set
from plain parameters only: a quoted string is taken to end at an escaped quote, and an escaped
blank at its end loses its blank and keeps its backslash. -/
theorem parses_of_plain (h : HeaderValue) (o : ContentType) :
    (¬h.Leaks ∧ h.Plain o → h.Parses o) ∧ (h.Parses o → h.Leaks ∨ h.Plain o) := by
  have hiff : ¬h.Leaks → (h.Parses o ↔ h.Plain o) := by
    intro hl
    have hps := parse_text (o := o) fun p hp hlp => hl ⟨p, hp, hlp⟩
    have hsets := @sets_readAll_iff { o with mime := h.mime.map toLower } h.params
    constructor
    · rintro ⟨t, ht, hset⟩
      rw [hps] at ht
      cases ht
      exact hsets.1 hset
    · exact fun hp => ⟨_, hps, hsets.2 hp⟩
  constructor
  · rintro ⟨hl, hp⟩
    exact (hiff hl).2 hp
  · intro hp
    by_cases hl : h.Leaks
    · exact .inl hl
    · exact .inr ((hiff hl).1 hp)

theorem lit_a_ne_nil : lit "a" ≠ [] := by decide

theorem lit_b_ne_nil : lit "b" ≠ [] := by decide

/-- `a/b;charset="\""`. -/
def escapedQuote : HeaderValue where
  type := ⟨lit "a", lit_a_ne_nil, List.all_eq_true.1 (by decide)⟩
  subtype := ⟨lit "b", lit_b_ne_nil, List.all_eq_true.1 (by decide)⟩
  params := [⟨[], [], ⟨lit "charset", by decide, List.all_eq_true.1 (by decide)⟩,
    .quoted [.pair '"'], List.forall_mem_nil _, List.forall_mem_nil _⟩]
  not_any := by decide

theorem not_parses_escapedQuote : ¬escapedQuote.Parses {} := by
  rintro ⟨t, ht, hcharset, -⟩
  have hrun : parse {} escapedQuote.text = some (.ok ⟨lit "a/b", lit "\\", []⟩) := by decide
  rw [hrun] at ht
  cases ht
  exact absurd hcharset (by decide)

end Jkl.Http
