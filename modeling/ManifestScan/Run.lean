import ManifestScan.CommandLine
import ManifestScan.Extraction.Assembly
import ManifestScan.Manifest.Document

namespace ManifestScan

structure Run where
  exit : Nat
  output : Bytes
  errors : Bytes
  tree : FileTree

namespace Run

def line (text : Bytes) : Bytes := text ++ [lineFeed]

def linesOf (texts : List Bytes) : Bytes := texts.flatMap line

def version : Bytes := ascii "mexscan 0.1.0"

def help : List Bytes :=
  ["mexscan - static plugin manifest extractor",
    "Usage: mexscan [options] <entry-file | package-dir>",
    "",
    "Options:",
    "  --help                    Show this help text and exit.",
    "  --version                 Show version information and exit.",
    "  --package-name=<name>     Manifest package name. Default: package directory name.",
    "  --root=<dir>              Primary search root for steps and signatures.",
    "  --venv=<dir>              Active environment root. Default: $VIRTUAL_ENV.",
    "  --dist-version=<version>  Distribution version used to find entry_points.txt.",
    "  --entry-point-group=<g>   Entry-point group naming the registration. Default: r2x_plugin.",
    "  --function=<name>         Registration function. Default: register_plugin.",
    "  --locator=<auto|tree|text> Registration call locator. Default: auto.",
    "  --verbose                 Print debug progress.",
    "  -o <path>                 Write the manifest to the given path instead of stdout."].map ascii

/-- The request that a command line makes. `active` is the environment that counts when
none is given. -/
def requestOf (tree : FileTree) (active : Option FilePath) (command : CommandLine) :
    ExtractionRequest :=
  let input := FilePath.normal ((tree.absolute? command.input).getD command.input)
  let isPackage := tree.isDirectory input
  let directory := SourceIndex.rootOf (if isPackage then input else FilePath.parent input)
  { entryFile := if isPackage then [] else input
    packageDirectory := directory
    packageName := command.package.getD (FilePath.fileName directory)
    searchRoot := command.root.getD []
    environment := (command.environment.or active).getD []
    workingDirectory := tree.current
    version := command.version
    group := command.group
    function := command.function
    list := Convention.default.list
    strategy := command.strategy }

def opening (command : CommandLine) (request : ExtractionRequest) : List Bytes :=
  [ascii "[information] Starting mexscan extraction.",
    ascii "  input: " ++ command.input,
    ascii "  package: " ++ request.packageName,
    ascii "  locator: " ++ command.strategy.name] ++
  (if request.environment.isEmpty then [] else [ascii "  environment: " ++ request.environment]) ++
  (if command.output.isEmpty then [] else [ascii "  output: " ++ command.output])

def remarks (command : CommandLine) (report : Report) : List Bytes :=
  if command.verbose then report.notes.map (ascii "[debug] " ++ ·) else []

def diagnosticLine (diagnostic : Diagnostic) : Bytes :=
  diagnostic.code ++ space :: diagnostic.kind.name ++ ascii ": " ++ diagnostic.message

def halted (request : ExtractionRequest) : Bytes :=
  ascii "MEX-W3001 Extraction halted for package " ++ named request.packageName ++ ascii "."

def extracted (command : CommandLine) (manifest : Manifest) : Bytes :=
  ascii "[notice] Extracted " ++ decimal manifest.plugins.length ++ ascii " plugins from " ++
    named command.input ++ ascii "."

/-- Extracts a manifest to the standard output, with everything else among the errors. -/
def toOutput (tree : FileTree) (command : CommandLine) (request : ExtractionRequest) : Run :=
  let report := ((Extractor.ofRequest request).report tree).1
  let errors := opening command request ++ remarks command report ++
    report.diagnostics.map diagnosticLine
  match report.manifest with
  | none => ⟨1, [], linesOf (errors ++ [halted request]), tree⟩
  | some manifest =>
    ⟨0, manifest.render, linesOf (errors ++ [extracted command manifest]), tree⟩

/-- Extracts a manifest to a file, with the progress on the standard output. -/
def toFile (tree : FileTree) (command : CommandLine) (request : ExtractionRequest) : Run :=
  let report := ((Extractor.ofRequest request).report tree).1
  let progress := opening command request ++ remarks command report
  let errors := report.diagnostics.map diagnosticLine
  match report.manifest with
  | none => ⟨1, linesOf progress, linesOf (errors ++ [halted request]), tree⟩
  | some manifest =>
    let progress := progress ++ [extracted command manifest]
    match manifest.save tree command.output with
    | (tree, some error) =>
      ⟨1, linesOf progress, linesOf (errors ++ [ascii "MEX-E3900 Io: " ++ error.message]), tree⟩
    | (tree, none) =>
      ⟨0, linesOf (progress ++ [ascii "[notice] Manifest written to " ++ command.output]),
        linesOf errors, tree⟩

/-- Runs the program on its arguments. The active environment ends at its first zero byte too. -/
def ofArguments (tree : FileTree) (active : Option FilePath) (arguments : List Bytes) : Run :=
  match CommandLine.ofArguments arguments with
  | .error error => ⟨1, [], line error.message, tree⟩
  | .ok command =>
    if command.showsHelp then ⟨0, linesOf help, [], tree⟩
    else if command.showsVersion then ⟨0, line version, [], tree⟩
    else
      let request := requestOf tree (active.map beforeZero) command
      if command.output.isEmpty then toOutput tree command request
      else toFile tree command request

end Run

end ManifestScan
