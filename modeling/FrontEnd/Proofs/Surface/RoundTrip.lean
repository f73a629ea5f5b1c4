import FrontEnd.Proofs.Grammar.Completeness
import FrontEnd.Proofs.Surface.Derivation

/-!
# Parsing undoes printing

The parser reads the rendering of a program and makes of it the trees that the program
means.  Inside a declaration that is completeness of the parser.  Declarations and the
signatures of a block are followed one by one, each up to the separator behind it.
-/

namespace FrontEnd

open Parse

namespace Surface

theorem Shows.not_eof {es : List Entry} {ts : List Written} (h : Shows es ts) :
    ∀ e ∈ es, ¬ e.Is .eof := by
  intro e he hk
  have hmem : e.token ∈ ts.map (·.1) := by
    rw [← show es.map (·.token) = ts.map (·.1) from h]
    exact List.mem_map_of_mem he
  obtain ⟨t, -, ht⟩ := List.mem_map.1 hmem
  obtain ⟨c, cs, -, -, hc, hscan⟩ := t.2.scans
  have hkind : (Lexeme.scan c cs).kind = .eof := by
    have := congrArg Token.kind (hscan.trans ht)
    exact this.trans hk
  exact Lexeme.scan_kind_ne_eof hc cs hkind

/-- Items with a separator behind each are read one after the other. -/
theorem many_separated {α β : Type} {item : Parse (Option α)} (htake : Takes item)
    {move : α → α} {tree : β → α} {text : β → List Written} {last : List Written} {t : Parser}
    (hitem : ∀ b s u es fs, Separators es → Shows fs (text b) → Passes s (es ++ fs) u →
      u.current.Is .semi → ∃ a, item s = .ok (some a) u ∧ move a = tree b)
    (hlast : ∀ s es fs, Separators es → Shows fs last → Passes s (es ++ fs) t →
      item s = .ok none t)
    (bs : List β) {s : Parser} {es fs : List Entry} (hes : Separators es)
    (hfs : Shows fs (bs.flatMap (fun b => text b ++ [semi.written]) ++ last))
    (h : Passes s (es ++ fs) t) :
    ∃ as, many item s = .ok as t ∧ as.map move = bs.map tree := by
  induction bs generalizing s es fs with
  | nil => exact ⟨[], many_nil htake (hlast s es fs hes hfs h), rfl⟩
  | cons b bs ih =>
    rw [List.flatMap_cons, List.append_assoc, List.append_assoc] at hfs
    obtain ⟨gs, is, rfl, hgs, his⟩ := hfs.append
    obtain ⟨c, is, rfl, hc, his⟩ := his.cons
    have hsemi : c.Is .semi := congrArg Token.kind hc
    rw [← List.append_assoc] at h
    obtain ⟨u, hu, hrest⟩ := h.split (by
      intro e he
      rcases List.mem_append.1 he with he | he
      · exact hes.not_eof e he
      · exact hgs.not_eof e he)
    have hcur : u.current.Is .semi := hrest.current ▸ hsemi
    obtain ⟨a, ha, hmove⟩ := hitem b s u es gs hes hgs hu hcur
    have hsep : Separators [c] := by
      intro e he
      rw [List.mem_singleton.1 he]
      exact hsemi
    obtain ⟨as, has, hmoves⟩ := ih hsep his hrest
    refine ⟨a :: as, many_cons htake ha has, ?_⟩
    rw [List.map_cons, List.map_cons, hmove, hmoves]

theorem Block.reads {k : TokenKind} {w : Word k} (b : Block) (hk : k.isPlain = true)
    {s t : Parser} {es : List Entry} (hes : Shows es (w.written :: b.tokens))
    (h : Passes s es t) : ∃ c, block s = .ok c t ∧ c.relocate away = b.tree := by
  obtain ⟨e, es₁, rfl, he, h₁⟩ := hes.cons
  obtain ⟨n, es₂, rfl, hn, h₂⟩ := h₁.cons
  obtain ⟨ps, es₃, rfl, hps, h₃⟩ := h₂.append
  obtain ⟨l, fs, rfl, hl, hfs⟩ := h₃.cons
  have hnk : n.Is .ident := congrArg Token.kind hn
  have hlk : l.Is .braceLeft := congrArg Token.kind hl
  obtain ⟨-, p₁⟩ := h.head_plain (congrArg Token.kind he) hk
  obtain ⟨-, p₂⟩ := p₁.head_plain hnk rfl
  obtain ⟨u, hu, p₃⟩ := p₂.split hps.not_eof
  obtain ⟨-, p₄⟩ := p₃.head_plain hlk rfl
  obtain ⟨ns, hns, -, hparams⟩ := derives_names s.path hps
  have hpath : s.advance.advance.path = s.path :=
    s.advance.path_advance.trans s.path_advance
  have hname : Parse.name s.advance = .ok (n.name s.advance.path) s.advance.advance :=
    name_ok (p₁.first hnk rfl) hnk
  have hnames : many name? s.advance.advance = .ok ns u :=
    hns.reads hpath hu (by rw [p₃.current, hlk]; rfl)
  obtain ⟨gs, hgs, hmembers⟩ :
      ∃ gs, many member? u.advance = .ok gs t ∧
        gs.map (FrontEnd.Signature.relocate away) = b.members.map Signature.tree := by
    refine many_separated takes_member? ?_ ?_ b.members (List.forall_mem_nil _) hfs p₄
    · intro g s u es fs hsep hg hp hsemi
      obtain ⟨c, hc, hmove⟩ := g.spells s.path fs hg
      exact ⟨c, member?_ok rfl hp hsep hc hsemi, hmove⟩
    · intro s es fs hsep hr hp
      obtain ⟨r, rfl, hrk⟩ := hr.one
      exact member?_end hp hsep (congrArg Token.kind hrk)
  refine ⟨⟨n.name s.advance.path, ns, gs, s.here⟩, ?_, ?_⟩
  · unfold block blockAt
    rw [here_bind, advance_bind, bind_ok hname, bind_ok hnames,
      bind_ok (expect_ok (p₃.first hlk rfl) hlk rfl)]
    exact map_ok (fun gs => FrontEnd.Block.mk _ ns gs s.here) hgs
  · unfold FrontEnd.Block.relocate
    rw [relocate_name s.advance.path hn, hparams, hmembers]
    rfl

theorem Decl.reads (d : Decl) {s t : Parser} {es : List Entry} (hes : Shows es d.tokens)
    (h : Passes s es t) (ht : t.current.Is .semi) :
    ∃ c, decl s = .ok c t ∧ c.relocate away = d.tree := by
  cases d with
  | signature g =>
    obtain ⟨c, hc, hg⟩ := g.spells s.path es hes
    refine ⟨_, hc.declSignature.reads rfl h (by rw [ht]; rfl), ?_⟩
    rw [FrontEnd.Decl.relocate, hg]
    rfl
  | function n params body =>
    obtain ⟨f, hf, hmove⟩ := spells_function n params body s.path es hes
    refine ⟨_, hf.reads rfl h (by rw [ht]; rfl), ?_⟩
    rw [FrontEnd.Decl.relocate, hmove]
    rfl
  | enumeration b =>
    obtain ⟨c, hc, hb⟩ := b.reads rfl hes h
    obtain ⟨e, es, rfl, he, -⟩ := hes.cons
    refine ⟨.enumeration c, ?_, ?_⟩
    · unfold decl
      rw [kind_bind, h.current, he]
      exact map_ok FrontEnd.Decl.enumeration hc
    · rw [FrontEnd.Decl.relocate, hb]
      rfl
  | sealed b =>
    obtain ⟨c, hc, hb⟩ := b.reads rfl hes h
    obtain ⟨e, es, rfl, he, -⟩ := hes.cons
    refine ⟨.sealed c, ?_, ?_⟩
    · unfold decl
      rw [kind_bind, h.current, he]
      exact map_ok FrontEnd.Decl.sealed hc
    · rw [FrontEnd.Decl.relocate, hb]
      rfl

theorem many_decls {s t : Parser} {es : List Entry} (ds : List Decl) (hes : Shows es (tokens ds))
    (h : Passes s es t) (ht : t.current.Is .eof) :
    ∃ cs, many decl? s = .ok cs t ∧ cs.map (FrontEnd.Decl.relocate away) = ds.map Decl.tree := by
  have hes' : Shows es (ds.flatMap (fun d => d.tokens ++ [semi.written]) ++ []) := by
    rw [List.append_nil]
    exact hes
  refine many_separated takes_decl? ?_ ?_ ds (List.forall_mem_nil _) hes' h
  · intro d s u es fs hsep hd hp hsemi
    obtain ⟨v, hv, hrest⟩ := hp.split hsep.not_eof
    obtain ⟨c, hc, hmove⟩ := d.reads hd hrest hsemi
    exact ⟨c, decl?_ok hv hsep hc, hmove⟩
  · intro s es fs hsep hnil hp
    rw [hnil.nil, List.append_nil] at hp
    exact decl?_end hp hsep ht

/-- The text of a program holds the tokens of the program. -/
theorem shows_print (path : String) (ds : List Decl) :
    Shows (Parser.ofReads path [.bytes (print ds).toUTF8]).tokens.entries (tokens ds) := by
  have hscans : ∀ t ∈ (tokens ds).map (·.1), t.Scans := by
    intro t ht
    obtain ⟨w, -, rfl⟩ := List.mem_map.1 ht
    exact w.2.scans
  have hprint : print ds = " ".intercalate (((tokens ds).map (·.1)).map (·.lexeme)) := by
    rw [List.map_map]
    rfl
  have hspaced := Spaced.intercalate hscans
  rw [← hprint] at hspaced
  exact hspaced.tokens_ofReads (Delivers.single _)

/-- Every program is what the parser reads when it is given the program's text. -/
theorem parse_print (path : String) (ds : List Decl) :
    ∃ f log, File.ofReads path [.bytes (print ds).toUTF8] = (.ok f, log) ∧
      f.decls.map (FrontEnd.Decl.relocate away) = ds.map Decl.tree := by
  generalize hs : Parser.ofReads path [.bytes (print ds).toUTF8] = s
  have hshows : Shows s.tokens.entries (tokens ds) := hs ▸ shows_print path ds
  obtain ⟨t, ht, heof⟩ := Passes.all s hshows.not_eof
  obtain ⟨cs, hcs, hmoves⟩ := many_decls ds hshows ht heof
  have hfile : file.run s = .ok ⟨none, cs, t.here, s.here⟩ t := by
    show file s = _
    unfold file
    rw [here_bind, bind_ok hcs]
    rfl
  refine ⟨⟨none, cs, t.here, s.here⟩, t.log.toList, ?_, hmoves⟩
  unfold File.ofReads
  rw [hs, hfile]

end Surface
end FrontEnd
