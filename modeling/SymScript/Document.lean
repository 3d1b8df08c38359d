import SymScript.Session

/-!
# Documents that show a term

A document shows a term as a formula, as a graph and as raw text, each part if it is asked for.
-/

namespace SymScript

structure DocumentOptions where
  folder : String := "./output"
  name : String := "result"
  hasLogo : Bool := true
  hasGraph : Bool := true
  hasLatex : Bool := true
  hasRaw : Bool := true
  /-- A further document to put at the end. -/
  appendix : Option String := none
deriving DecidableEq, Repr

namespace DocumentOptions

def source (o : DocumentOptions) : String := o.folder ++ "/" ++ o.name ++ ".tex"

def result (o : DocumentOptions) : String := o.folder ++ "/" ++ o.name ++ ".pdf"

end DocumentOptions

namespace Document

/-- Lines of the document, each set in and after a line feed, down to the last set-in, where the
next part starts. -/
def part (lines : List String) : String :=
  String.join (lines.map fun l => "\n" ++ (if l == "" then "" else "        " ++ l)) ++ "\n        "

def heading : String :=
  part ["\\documentclass\x7barticle\x7d", "\\usepackage\x7bgraphicx\x7d",
    "\\usepackage\x7bamsmath\x7d", "\\usepackage\x7bgeometry\x7d", "\\usepackage\x7bfancyvrb\x7d",
    "\\usepackage\x7bpdflscape\x7d", "\\usepackage\x7bpdfpages\x7d"] ++
  part ["\\geometry\x7ba4paper, margin=1in\x7d", "", "\\begin\x7bdocument\x7d"]

def logo : String :=
  part ["\\begin\x7bcenter\x7d",
    "\\includegraphics[width=0.2\\textwidth]\x7b./imgs/LuppoloIcon.jpg\x7d", "\\end\x7bcenter\x7d"]

def formula (latex : String) : String :=
  part ["\\section*\x7bLaTeX Representation\x7d", "\\vspace\x7b-2em\x7d", "\\begin\x7bcenter\x7d",
    "\\LARGE", "\\begin\x7bequation*\x7d", latex, "\\end\x7bequation*\x7d", "\\end\x7bcenter\x7d",
    "\\vspace\x7b1em\x7d"]

def picture (file : String) : String :=
  part ["\\section*\x7bGraph Representation\x7d", "\\vspace\x7b-2em\x7d", "\\begin\x7bcenter\x7d",
    "\\includegraphics\x7b" ++ file ++ "\x7d", "\\end\x7bcenter\x7d"]

def rawText (raw : String) : String :=
  part ["\\section*\x7bRaw Representation\x7d", "\\vspace\x7b1em\x7d", "\\begin\x7bcenter\x7d",
    "\\Large", "\\texttt\x7b" ++ raw ++ "\x7d ", "\\end\x7bcenter\x7d"]

def appendix (file : String) : String :=
  part ["\\includepdf[landscape=true]\x7b" ++ file ++ "\x7d"]

def ending : String := "\n        \\end\x7bdocument\x7d\n    "

/-- Draws a graph into a file and gives the path of the picture. -/
def drawGraph (drawing : Except AlgebraError Drawing) (name : String) : SessionM String := do
  let d ← SessionM.ofExcept .algebra drawing
  d.nodeNames.forM fun n => SessionM.note .debug ("Developing Graph for node " ++ n)
  let file := "./output/temp/" ++ name
  SessionM.request (.render file "pdf" d.strokes.length)
  if (← get).outside.failsToRender then
    SessionM.note .error "Error creating pdf from tree: render failed"
    throw .renderFailed
  return file ++ ".pdf"

/-- A part of the document, if it is wanted. -/
def partIf (wanted : Bool) (text : SessionM String) : SessionM String :=
  if wanted then text else pure ""

/-- Writes the source of a document. -/
def writeSource (t : Term) (o : DocumentOptions) : SessionM Unit := do
  let latex ← partIf o.hasLatex do return formula (← SessionM.ofExcept .algebra t.latex)
  let graph ← partIf o.hasGraph do return picture (← drawGraph (t.draw []) "graph")
  let raw ← partIf o.hasRaw do return rawText (← SessionM.ofExcept .algebra t.raw)
  let text := heading ++ (if o.hasLogo then logo else "") ++ latex ++ graph ++ raw ++
    (o.appendix.map appendix).getD "" ++ ending
  SessionM.note .debug "Creating the LaTeX file"
  SessionM.writeFile o.source text

/-- Makes the source of a document and gives its path. -/
def generateSource (t : Term) (o : DocumentOptions) : SessionM String := do
  SessionM.note .info "Generating expression LaTeX representation"
  writeSource t o
  SessionM.note .info ("LaTeX representation generated in " ++ o.source)
  return o.source

/-- Removes what an earlier run left. -/
def removeOld (path : String) : SessionM Unit := do
  if (← get).files.holds (Path.ofText path) then
    SessionM.note .debug "Removing old PDF file"
    try SessionM.removeFile path
    catch e =>
      SessionM.note .error
        ("Error removing old PDF file: " ++ path ++ ". Error: " ++ e.message.getD "")
      throw e

/-- Makes a document, of which the source is not kept, and gives its path. -/
def generate (t : Term) (o : DocumentOptions) : SessionM String := do
  SessionM.note .info "Generating expression PDF representation"
  writeSource t o
  removeOld o.result
  SessionM.note .debug "Generating PDF from LaTeX using pdflatex"
  SessionM.runProgram ["pdflatex", "-halt-on-error", "-interaction=nonstopmode", "-aux-directory",
    o.folder ++ "/temp/", "-output-directory", o.folder, o.source]
  SessionM.note .debug "Removing LaTeX file used for creating the PDF"
  SessionM.removeFile o.source
  SessionM.note .info ("PDF representation generated in " ++ o.result)
  return o.result

end Document

end SymScript
