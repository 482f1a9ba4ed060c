import ManifestScan.Proofs.Extraction.Outcome
import ManifestScan.Proofs.File.Write
import ManifestScan.Run

namespace ManifestScan.Run

variable {tree : FileTree} {active : Option FilePath} {arguments : List Bytes}
  {command : CommandLine}

end ManifestScan.Run
