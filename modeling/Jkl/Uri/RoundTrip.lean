import Jkl.Uri.Lossless

/-! Components written with `url_encoded` are read back as they were: escaping leaves no byte
in a component that ends it or a part before it. -/
namespace Jkl.Uri

open Cut (find rfind find_append find_eq_none rfind_append rfind_eq_none)

variable {asserts : Bool} {k : NoEscCat} {s r : Bytes} {x : Byte}

/-- The bytes hold no delimiter of the list, and no white space. -/
def Avoids (ds s : Bytes) : Prop := ∀ x ∈ s, x ∉ ds ∧ isSpace x = false

section Avoids

variable {ds : Bytes}

@[simp] theorem avoids_nil : Avoids ds [] := by simp [Avoids]

theorem Avoids.append (hs : Avoids ds s) (hr : Avoids ds r) : Avoids ds (s ++ r) := by
  intro x hx
  obtain h | h := List.mem_append.1 hx
  · exact hs x h
  · exact hr x h

theorem avoids_singleton (h : x ∉ ds) (hx : isSpace x = false) : Avoids ds [x] := by
  intro y hy
  rw [List.mem_singleton.1 hy]
  exact ⟨h, hx⟩

theorem avoids_ite {q : Prop} [Decidable q] (h : Avoids ds s) :
    Avoids ds (if q then [] else s) := by
  split
  · exact avoids_nil
  · exact h

theorem avoids_escapeAppend (h : ∀ d ∈ ds, ¬Escaped k d) : Avoids ds (escapeAppend k s) :=
  fun x hx => ⟨fun hd => h x hd (escaped_of_mem hx), isSpace_of_escaped (escaped_of_mem hx)⟩

theorem Avoids.mono {ds' : Bytes} (h : Avoids ds s) (hsub : ds' ⊆ ds) : Avoids ds' s :=
  fun x hx => ⟨fun hd => (h x hx).1 (hsub hd), (h x hx).2⟩

theorem Avoids.not_mem (h : Avoids ds s) (hx : x ∈ ds) : x ∉ s := fun hs => (h x hs).1 hx

end Avoids

/-- RFC 3986 scheme: a letter, then letters, digits, `'+'`, `'-'` and `'.'`. -/
def IsScheme : Bytes → Prop
  | [] => False
  | c :: s => isAlpha c = true ∧ ∀ x ∈ s, (isAlpha x || isDigit x || x ∈ lit "+-.") = true

instance : DecidablePred IsScheme
  | [] => inferInstanceAs (Decidable False)
  | c :: s => inferInstanceAs
    (Decidable (isAlpha c = true ∧ ∀ x ∈ s, (isAlpha x || isDigit x || x ∈ lit "+-.") = true))

theorem avoids_of_isScheme (h : IsScheme s) : Avoids (lit ":/?#") s := by
  have key : ∀ x : Byte, (isAlpha x || isDigit x || x ∈ lit "+-.") = true →
      x ∉ lit ":/?#" ∧ isSpace x = false := forall_byte (by decide +kernel)
  cases s with
  | nil => exact avoids_nil
  | cons c s =>
    intro x hx
    obtain rfl | hx := List.mem_cons.1 hx
    · exact key x (by simp [h.1])
    · exact key x (h.2 x hx)

theorem avoids_of_digits (h : ∀ x ∈ s, isDigit x = true) : Avoids (lit ":/?#@[]") s := by
  have key : ∀ x : Byte, isDigit x = true → x ∉ lit ":/?#@[]" ∧ isSpace x = false :=
    forall_byte (by decide +kernel)
  exact fun x hx => key x (h x hx)

/-- Decoded components that a text can tell apart. -/
structure Components where
  scheme : Bytes
  user : Bytes
  password : Bytes
  host : Bytes
  port : Bytes
  path : Bytes
  query : Bytes
  frag : Bytes
  isScheme : scheme = [] ∨ IsScheme scheme
  password_of_user : user = [] → password = []
  /-- A registered name, or one literal in brackets. -/
  isHost : (∀ x ∈ lit ":[]", x ∉ host) ∨
    ∃ inner, host = [('[' : Byte)] ++ inner ++ [(']' : Byte)]
  isPort : ∀ x ∈ port, isDigit x = true
  isPath : path = [] ∨ path.head? = some ('/' : Byte)

namespace Components

def tagged (c : Components) : List (Tag × Bytes) :=
  [(.scheme, c.scheme), (.user, c.user), (.password, c.password), (.host, c.host),
    (.port, c.port), (.path, c.path), (.query, c.query), (.frag, c.frag)]

/-- The writer over the decoded components. -/
def writer (c : Components) : WriteComps :=
  WriteComps.ofTexts .urlDecoded fun t => c.tagged.lookup t

/-- A reader for the same components, all of them empty. -/
def fresh : Comps :=
  strComps .urlDecoded
    ([.scheme, .user, .password, .host, .port, .path, .query, .frag].map fun t => (t, []))

variable (c : Components)

/-! The text, part by part. -/

def schemeColon : Bytes := if c.scheme = [] then [] else c.scheme ++ [(':' : Byte)]

def info : Bytes :=
  escapeAppend .userinfo c.user ++
    if c.password = [] then [] else [(':' : Byte)] ++ escapeAppend .userinfo c.password

def infoAt : Bytes := if c.user = [] then [] else c.info ++ [('@' : Byte)]

def colonPort : Bytes := if c.port = [] then [] else [(':' : Byte)] ++ c.port

def hostPort : Bytes := escapeAppend .host c.host ++ c.colonPort

def qmQuery : Bytes := if c.query = [] then [] else [('?' : Byte)] ++ escapeAppend .query c.query

def sharpFrag : Bytes := if c.frag = [] then [] else [('#' : Byte)] ++ escapeAppend .frag c.frag

def text : Bytes :=
  c.schemeColon ++ (lit "//" ++ (c.infoAt ++ c.hostPort) ++
    (escapeAppend .path c.path ++ (c.qmQuery ++ c.sharpFrag)))

section Write

theorem writer_eq {t : Tag} {x : Bytes} (ht : t ≠ .autoPort) (h : c.tagged.lookup t = some x) :
    c.writer t = some (.str ht .urlDecoded x) := by
  simp [writer, WriteComps.ofTexts, ht, h]

theorem writer_eq_none {t : Tag} (h : c.tagged.lookup t = none) : c.writer t = none := by
  simp [writer, WriteComps.ofTexts, h]

theorem appendScheme_writer :
    c.writer.appendScheme asserts .urlEncoded = .ok c.schemeColon := by
  simp only [WriteComps.appendScheme, c.writer_eq_none (t := .schemeColon) rfl,
    c.writer_eq (t := .scheme) (by decide) rfl]
  by_cases h : c.scheme = [] <;> simp [h, schemeColon, codecCvtAppend, encodeAppend]

theorem appendUserinfo_writer :
    c.writer.appendUserinfo asserts .urlEncoded = .ok c.infoAt := by
  simp only [WriteComps.appendUserinfo, c.writer_eq_none (t := .userinfoAt) rfl,
    c.writer_eq_none (t := .userinfo) rfl, c.writer_eq (t := .user) (by decide) rfl,
    c.writer_eq (t := .password) (by decide) rfl]
  by_cases h : c.user = []
  · simp [h, infoAt]
  · by_cases hp : c.password = [] <;>
      simp [h, hp, infoAt, info, codecCvtAppend, encodeAppend]

theorem appendHostPort_writer :
    c.writer.appendHostPort asserts .urlEncoded (.ok s) = .ok (s ++ c.hostPort) := by
  simp only [WriteComps.appendHostPort, WriteComps.doWrite,
    c.writer_eq_none (t := .hostPort) rfl, c.writer_eq (t := .host) (by decide) rfl,
    c.writer_eq (t := .port) (by decide) rfl]
  by_cases h : c.port = [] <;> simp [h, hostPort, colonPort, codecCvtAppend, encodeAppend]

theorem appendPath_writer :
    c.writer.appendPath asserts .urlEncoded = .ok (escapeAppend .path c.path) := by
  simp [WriteComps.appendPath, c.writer_eq (t := .path) (by decide) rfl, codecCvtAppend,
    encodeAppend]

theorem appendQuery_writer :
    c.writer.appendQuery asserts .urlEncoded = .ok c.qmQuery := by
  simp only [WriteComps.appendQuery, c.writer_eq_none (t := .qmQuery) rfl,
    c.writer_eq (t := .query) (by decide) rfl]
  by_cases h : c.query = [] <;> simp [h, qmQuery, codecCvtAppend, encodeAppend]

theorem appendFrag_writer :
    c.writer.appendFrag asserts .urlEncoded = .ok c.sharpFrag := by
  simp only [WriteComps.appendFrag, c.writer_eq_none (t := .sharpFrag) rfl,
    c.writer_eq (t := .frag) (by decide) rfl]
  by_cases h : c.frag = [] <;> simp [h, sharpFrag, codecCvtAppend, encodeAppend]

theorem appendTo_writer : c.writer.appendTo asserts .urlEncoded = .ok c.text := by
  simp only [WriteComps.appendTo, WriteComps.appendAuthority,
    c.writer_eq_none (t := .schemeAuthority) rfl, c.writer_eq_none (t := .ssAuthority) rfl,
    c.writer_eq_none (t := .authority) rfl, c.writer_eq_none (t := .qmQueryFrag) rfl,
    appendScheme_writer, appendUserinfo_writer, Out.ok_append_ok, appendHostPort_writer,
    appendPath_writer, appendQuery_writer, appendFrag_writer]
  simp [text]

end Write

/-! Reading the text. -/

theorem avoids_schemeColon : Avoids [] c.schemeColon := by
  refine avoids_ite ?_
  obtain h | h := c.isScheme
  · rw [h]
    exact avoids_singleton (by simp) (by decide)
  · exact ((avoids_of_isScheme h).mono (by simp)).append (avoids_singleton (by simp) (by decide))

theorem avoids_info : Avoids (lit "/?#@") c.info :=
  (avoids_escapeAppend (by decide +kernel)).append
    (avoids_ite ((avoids_singleton (by decide) (by decide)).append
      (avoids_escapeAppend (by decide +kernel))))

theorem avoids_infoAt : Avoids (lit "/?#") c.infoAt :=
  avoids_ite ((c.avoids_info.mono (by decide)).append (avoids_singleton (by decide) (by decide)))

theorem avoids_hostPort : Avoids (lit "/?#@") c.hostPort :=
  (avoids_escapeAppend (by decide +kernel)).append
    (avoids_ite ((avoids_singleton (by decide) (by decide)).append
      ((avoids_of_digits c.isPort).mono (by decide))))

theorem avoids_qmQuery : Avoids (lit "#") c.qmQuery :=
  avoids_ite ((avoids_singleton (by decide) (by decide)).append
    (avoids_escapeAppend (by decide +kernel)))

theorem avoids_sharpFrag : Avoids [] c.sharpFrag :=
  avoids_ite ((avoids_singleton (by simp) (by decide)).append (avoids_escapeAppend (by simp)))

theorem trim_text : trim c.text = c.text := by
  have h : Avoids [] c.text := by
    have hslash : Avoids [] (lit "//") := by
      unfold Avoids
      decide +kernel
    refine c.avoids_schemeColon.append (Avoids.append (hslash.append ?_) ?_)
    · exact (c.avoids_infoAt.mono (by simp)).append (c.avoids_hostPort.mono (by simp))
    · exact (avoids_escapeAppend (by simp)).append
        ((c.avoids_qmQuery.mono (by simp)).append c.avoids_sharpFrag)
  refine trim_eq_self (fun x hx => (h x (List.mem_of_mem_head? hx)).2) fun x hx => ?_
  exact (h x (List.mem_of_getLast? hx)).2

theorem head_sharpFrag (h : c.sharpFrag.head? = some x) : x = '#' := by
  unfold sharpFrag at h
  split at h
  · simp at h
  · simpa using h.symm

theorem head_queryFrag (h : (c.qmQuery ++ c.sharpFrag).head? = some x) : x ∈ lit "?#" := by
  unfold qmQuery at h
  split at h
  · rw [c.head_sharpFrag (x := x) (by simpa using h)]
    decide
  · rw [show x = '?' by simpa using h.symm]
    decide

theorem matchSchemeColon_text : matchSchemeColon c.text =
    (if c.scheme = [] then none else some c.schemeColon,
      lit "//" ++ (c.infoAt ++ c.hostPort) ++
        (escapeAppend .path c.path ++ (c.qmQuery ++ c.sharpFrag))) := by
  unfold text
  by_cases h : c.scheme = []
  · rw [if_pos h, schemeColon, if_pos h, List.nil_append]
    refine matchSchemeColon_none fun x hx => ?_
    rw [show x = '/' by simpa [lit] using hx.symm]
    decide
  · have hs := avoids_of_isScheme (c.isScheme.resolve_left h)
    rw [if_neg h, schemeColon, if_neg h, List.append_assoc]
    exact matchSchemeColon_eq fun x hx => (hs x hx).1

theorem matchSsAuthority_text : matchSsAuthority (lit "//" ++ (c.infoAt ++ c.hostPort) ++
      (escapeAppend .path c.path ++ (c.qmQuery ++ c.sharpFrag))) =
    (some (lit "//" ++ (c.infoAt ++ c.hostPort)),
      escapeAppend .path c.path ++ (c.qmQuery ++ c.sharpFrag)) := by
  refine matchSsAuthority_eq (fun x hx => ?_) fun x hx => ?_
  · exact (c.avoids_infoAt.append (c.avoids_hostPort.mono (by decide)) x hx).1
  · have hquery : (c.qmQuery ++ c.sharpFrag).head? = some x → x ∈ lit "/?#" :=
      fun h => List.mem_cons_of_mem _ (c.head_queryFrag h)
    obtain hp | hp := c.isPath
    · exact hquery (by simpa [hp] using hx)
    · obtain ⟨y, w, hy⟩ : ∃ y w, c.path = y :: w := by
        cases hc : c.path with
        | nil => simp [hc] at hp
        | cons y w => exact ⟨y, w, rfl⟩
      have hslash : y = '/' := by simpa [hy] using hp
      -- a '/' is left alone in a path
      rw [hy, hslash, escapeAppend_cons, escapeByte_of_noEsc (by decide)] at hx
      rw [show x = '/' by simpa using hx.symm]
      decide

theorem parts_text : (parts c.text).schemeColon =
      (if c.scheme = [] then none else some c.schemeColon) ∧
    (parts c.text).ssAuthority = some (lit "//" ++ (c.infoAt ++ c.hostPort)) ∧
    (parts c.text).path.getD [] = escapeAppend .path c.path ∧
    (parts c.text).qmQuery.getD [] = c.qmQuery ∧
    (parts c.text).sharpFrag.getD [] = c.sharpFrag := by
  have hpath : ∀ x ∈ escapeAppend .path c.path, x ∉ lit "?#" := fun x hx =>
    (@avoids_escapeAppend .path _ (lit "?#") (by decide +kernel) x hx).1
  obtain ⟨hp₁, hp₂⟩ := matchPath_eq hpath fun x => c.head_queryFrag
  have hq : (matchQmQuery (c.qmQuery ++ c.sharpFrag)).1.getD [] = c.qmQuery ∧
      (matchQmQuery (c.qmQuery ++ c.sharpFrag)).2 = c.sharpFrag := by
    by_cases h : c.query = []
    · have hne : c.sharpFrag.head? ≠ some ('?' : Byte) := fun e => by
        have := c.head_sharpFrag e
        revert this
        decide
      simp [qmQuery, h, matchQmQuery_none hne]
    · have hs : ∀ x ∈ escapeAppend .query c.query, x ≠ '#' := fun x hx =>
        fun e => (@avoids_escapeAppend .query _ (lit "#") (by decide +kernel) x hx).1
          (by simp [e, lit])
      have := matchQmQuery_eq hs fun x => c.head_sharpFrag
      simp only [qmQuery, h, if_false]
      simp only [List.singleton_append, this, Option.getD_some, and_self]
  simp only [parts, c.matchSchemeColon_text, c.matchSsAuthority_text, hp₁, hp₂, hq.1, hq.2,
    matchSharpFrag_eq fun x => c.head_sharpFrag, and_self]

theorem schemeColon_length :
    (parts c.text).schemeColon.elim True fun m => m.length ≠ 1 := by
  rw [c.parts_text.1]
  by_cases h : c.scheme = []
  · simp [h]
  · simp [h, schemeColon]

theorem text_scheme : (parts c.text).text .scheme = c.scheme := by
  rw [Parts.text_scheme c.schemeColon_length, c.parts_text.1]
  by_cases h : c.scheme = []
  · simp [h]
  · simp [h, schemeColon]

theorem userinfo_text :
    (parts c.text).userinfo = if c.user = [] then none else some c.info := by
  have hdrop : (lit "//" ++ (c.infoAt ++ c.hostPort)).drop 2 = c.infoAt ++ c.hostPort := by
    simp [lit]
  rw [Parts.userinfo, c.parts_text.2.1, Option.bind_some, hdrop]
  have hhost : ('@' : Byte) ∉ c.hostPort := c.avoids_hostPort.not_mem (by decide)
  by_cases h : c.user = []
  · simp [h, infoAt, find_eq_none.2 hhost]
  · have hinfo : ('@' : Byte) ∉ c.info := c.avoids_info.not_mem (by decide)
    simp [h, infoAt, find_append hinfo]

theorem hostPort_text : (parts c.text).hostPort = c.hostPort := by
  have hdrop : (lit "//" ++ (c.infoAt ++ c.hostPort)).drop 2 = c.infoAt ++ c.hostPort := by
    simp [lit]
  rw [Parts.hostPort, c.parts_text.2.1, Option.elim, hdrop]
  have hhost : ('@' : Byte) ∉ c.hostPort := c.avoids_hostPort.not_mem (by decide)
  by_cases h : c.user = []
  · simp [h, infoAt, find_eq_none.2 hhost]
  · have hinfo : ('@' : Byte) ∉ c.info := c.avoids_info.not_mem (by decide)
    simp [h, infoAt, find_append hinfo]

/-- The user and the password are told apart by the first `':'`, which escaping keeps out. -/
theorem find_info : find (':' : Byte) c.info =
    if c.password = [] then none
    else some (escapeAppend .userinfo c.user, escapeAppend .userinfo c.password) := by
  have h : ∀ s, (':' : Byte) ∉ escapeAppend .userinfo s :=
    fun s => not_mem_escapeAppend (by decide)
  by_cases hp : c.password = []
  · simp [info, hp, h]
  · simp [info, hp, find_append (h _)]

theorem text_user : (parts c.text).text .user = escapeAppend .userinfo c.user := by
  rw [Parts.text_user, userinfo_text]
  by_cases h : c.user = []
  · simp [h]
  · rw [if_neg h, Option.elim, find_info]
    by_cases hp : c.password = [] <;> simp [hp, info]

theorem text_password : (parts c.text).text .password = escapeAppend .userinfo c.password := by
  rw [Parts.text_password, userinfo_text]
  by_cases h : c.user = []
  · simp [h, c.password_of_user h]
  · by_cases hp : c.password = []
    · simp [h, hp, find_info]
    · simp [h, hp, find_info]

/-- Escaping a host keeps brackets and colons, and brings in none. -/
theorem mem_of_mem_escapeHost (hx : x ∈ lit ":[]") (h : x ∈ escapeAppend .host s) : x ∈ s := by
  have hhex : ∀ y ∈ lit "%0123456789ABCDEF", y ∉ lit ":[]" := by decide +kernel
  obtain ⟨c, hc, hxc⟩ := List.mem_flatMap.1 h
  have hc' : x = c := by
    obtain ⟨h₁, h₂⟩ := hexDigit_mem c
    rw [escapeByte, if_neg (by simp)] at hxc
    by_cases hno : isNoEsc .host c = true
    · rw [if_pos hno] at hxc
      exact List.mem_singleton.1 hxc
    · rw [if_neg hno] at hxc
      -- what an escape is made of is no delimiter
      have hmem : x ∈ lit "%0123456789ABCDEF" := by
        obtain rfl | hxc := List.mem_cons.1 hxc
        · decide
        obtain rfl | hxc := List.mem_cons.1 hxc
        · exact List.mem_cons_of_mem _ h₁
        · rw [List.mem_singleton.1 hxc]
          exact List.mem_cons_of_mem _ h₂
      exact absurd hx (hhex x hmem)
  exact hc' ▸ hc

theorem hostCut_hostPort :
    hostCut c.hostPort = some (escapeAppend .host c.host, c.colonPort) := by
  have hport : ∀ x ∈ lit ":]", x ∉ c.port := fun x hx =>
    (avoids_of_digits c.isPort).not_mem (by revert x; decide +kernel)
  obtain h | ⟨inner, h⟩ := c.isHost
  · have hno : ∀ x ∈ lit ":[]", x ∉ escapeAppend .host c.host :=
      fun x hx hm => h x hx (mem_of_mem_escapeHost hx hm)
    have hhead : c.hostPort.head? ≠ some ('[' : Byte) := by
      intro e
      obtain hm | hm := List.mem_append.1 (List.mem_of_mem_head? e)
      · exact hno _ (by decide) hm
      · unfold colonPort at hm
        split at hm
        · simp at hm
        · obtain hm | hm := List.mem_append.1 hm
          · revert hm
            decide
          · exact (avoids_of_digits c.isPort).not_mem (by decide) hm
    rw [hostCut, if_neg hhead]
    have hno' : (':' : Byte) ∉ escapeAppend .host c.host := hno _ (by decide)
    have hport' : (':' : Byte) ∉ c.port := hport _ (by decide)
    by_cases hp : c.port = []
    · simp [hostPort, colonPort, hp, rfind_eq_none.2 hno']
    · simp [hostPort, colonPort, hp, rfind_append hport']
  · have hesc : escapeAppend .host c.host =
        [('[' : Byte)] ++ escapeAppend .host inner ++ [(']' : Byte)] := by
      rw [h, escapeAppend_append, escapeAppend_append]
      rfl
    have hrest : (']' : Byte) ∉ c.colonPort := by
      unfold colonPort
      split
      · simp
      · have hport' : (']' : Byte) ∉ c.port := hport _ (by decide)
        simpa using hport'
    have hcut : c.hostPort =
        ([('[' : Byte)] ++ escapeAppend .host inner) ++ (']' : Byte) :: c.colonPort := by
      simp [hostPort, hesc]
    rw [hostCut, if_pos (by simp [hcut]), hcut, rfind_append hrest, hesc]
    rfl

theorem text_host : (parts c.text).text .host = escapeAppend .host c.host := by
  rw [Parts.text_host, hostPort_text, hostCut_hostPort]
  rfl

theorem text_port : (parts c.text).text .port = c.port := by
  rw [Parts.text_port, hostPort_text, hostCut_hostPort]
  by_cases h : c.port = [] <;> simp [portOf, colonPort, h]

theorem fresh_eq {t : Tag} :
    fresh t = (c.tagged.lookup t).map fun _ => .str .urlDecoded [] := by
  have key : ∀ l : List (Tag × Bytes), (l.map fun p => (p.1, ([] : Bytes))).lookup t =
      (l.lookup t).map fun _ => [] := by
    intro l
    induction l with
    | nil => rfl
    | cons p l ih =>
      obtain ⟨x, v⟩ := p
      cases h : t == x <;> simp [List.lookup_cons, h, ih]
  change ((c.tagged.map fun p => (p.1, [])).lookup t).map _ = _
  rw [key, Option.map_map]
  rfl

/-- Each component is read back from its part. -/
theorem decode_text {t : Tag} (h : (t, s) ∈ c.tagged) :
    codecCvtAppend asserts t .urlDecoded .urlEncoded ((parts c.text).text t) = .ok s := by
  obtain ⟨-, -, hpath, hquery, hfrag⟩ := c.parts_text
  simp only [tagged, List.mem_cons, Prod.mk.injEq, List.not_mem_nil, or_false] at h
  obtain ⟨rfl, rfl⟩ | ⟨rfl, rfl⟩ | ⟨rfl, rfl⟩ | ⟨rfl, rfl⟩ | ⟨rfl, rfl⟩ | ⟨rfl, rfl⟩ |
    ⟨rfl, rfl⟩ | ⟨rfl, rfl⟩ := h
  · rw [text_scheme]
    rfl
  · rw [text_user]
    exact unescape_escape (k := .userinfo)
  · rw [text_password]
    exact unescape_escape (k := .userinfo)
  · rw [text_host]
    exact unescape_escape (k := .host)
  · rw [text_port]
    rfl
  · rw [Parts.text_path, hpath]
    exact unescape_escape (k := .path)
  · have ht : c.qmQuery.tail = escapeAppend .query c.query := by
      by_cases h : c.query = [] <;> simp [qmQuery, h]
    rw [Parts.text_query, hquery, ht]
    exact unescape_escape (k := .query)
  · have ht : c.sharpFrag.tail = escapeAppend .frag c.frag := by
      by_cases h : c.frag = [] <;> simp [sharpFrag, h]
    rw [Parts.text_frag, hfrag, ht]
    exact unescape_escape (k := .frag)

theorem exists_read_text (asserts : Bool) :
    ∃ comps, read asserts .urlEncoded c.text fresh = .ok comps := by
  refine exists_read strAt_strComps fun a ha => ?_
  rw [c.trim_text, acts_eq_parts] at ha
  cases a with
  | assignPort s u => trivial
  | fail e =>
    refine fail_not_mem_acts c.schemeColon_length ?_ ha
    rw [hostPort_text, hostCut_hostPort]
    simp
  | doRead t s =>
    intro ht
    have hmem : ∃ x, (t, x) ∈ c.tagged := by
      have ht' : t ∈ c.tagged.map Prod.fst := by simpa [tagged] using ht
      obtain ⟨p, hp, rfl⟩ := List.mem_map.1 ht'
      exact ⟨p.2, hp⟩
    obtain ⟨x, hx⟩ := hmem
    rw [← text_of_mem_acts ha, c.decode_text hx, Out.stop_ok]

/-- What is written from decoded components is read back into the same components. -/
theorem write_read (asserts : Bool) (c : Components) : ∃ text,
    c.writer.assignTo asserts .urlEncoded = .ok text ∧
      read asserts .urlEncoded text fresh = .ok (strComps .urlDecoded c.tagged) := by
  obtain ⟨comps, h⟩ := c.exists_read_text asserts
  have hhost : ∀ k ∈ c.writer .host, k.isAddress = false := by
    rintro k ⟨⟩
    rfl
  refine ⟨c.text, ?_, ?_⟩
  · rw [WriteComps.assignTo_eq rfl hhost, appendTo_writer]
    rfl
  rw [h]
  refine congrArg _ (funext fun t => ?_)
  cases hx : c.tagged.lookup t with
  | none =>
    rw [none_of_read h (by rw [c.fresh_eq, hx]; rfl), strComps, hx]
    rfl
  | some x =>
    have hfresh : fresh t = some (.str .urlDecoded []) := by
      rw [c.fresh_eq, hx]
      rfl
    obtain ⟨s', hs', hcvt⟩ := str_of_read h hfresh
    have hmem : (t, x) ∈ c.tagged := by
      obtain ⟨l₁, l₂, hl, -⟩ := List.lookup_eq_some_iff.1 hx
      simp [hl]
    rw [c.trim_text, c.decode_text hmem, Out.ok_inj] at hcvt
    rw [hs', ← hcvt, strComps, hx]
    rfl

/-- Every delimiter inside a component is escaped. -/
example : (writer ⟨lit "http", lit "a:b", lit "p@", lit "[::1]", lit "80", lit "/x y", lit "q+ r",
    lit "f#", by decide +kernel, by decide +kernel, .inr ⟨lit "::1", by decide⟩,
    by decide +kernel, by decide +kernel⟩).assignTo true .urlEncoded =
      .ok (lit "http://a%3Ab:p%40@[::1]:80/x%20y?q%2B+r#f#") := by
  rfl

end Components

end Jkl.Uri
