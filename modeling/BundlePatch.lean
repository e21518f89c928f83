import BundlePatch.Text.Utf8.RoundTrip
import BundlePatch.Session
import BundlePatch.Main
import BundlePatch.Proofs.Catalogue.Termination
import BundlePatch.Proofs.Catalogue.Idempotence
import BundlePatch.Proofs.Patch.AllOrNothing
import BundlePatch.Proofs.Text.Alignment
import BundlePatch.Proofs.Text.Bytewise
import BundlePatch.Proofs.Catalogue.Firing
import BundlePatch.Proofs.Rewriting.Kept
import BundlePatch.Proofs.Rewriting.Prescription
import BundlePatch.Proofs.Catalogue.Printable
import BundlePatch.Proofs.Patch.Bytewise
import BundlePatch.Proofs.Patch.Ruling
import BundlePatch.Proofs.Patch.Report
import BundlePatch.Proofs.Files.SameTree
import BundlePatch.Proofs.Session.Files
import BundlePatch.Proofs.Catalogue.Schedule
import BundlePatch.Proofs.CommandLine.EntryPoints
import BundlePatch.Proofs.Pattern.Seam
import BundlePatch.Proofs.Catalogue.Skipping
import BundlePatch.Proofs.Rewriting.Commuting
import BundlePatch.Proofs.Catalogue.Commuting
import BundlePatch.Proofs.Catalogue.Installed
import BundlePatch.Proofs.Pattern.Placed
import BundlePatch.Proofs.Rewriting.Draining
import BundlePatch.Proofs.Catalogue.Boundary
import BundlePatch.Proofs.Rewriting.Pieces
import BundlePatch.Proofs.Catalogue.Lines
import BundlePatch.Proofs.Text.Faults
import BundlePatch.Proofs.Patch.Malformed
import BundlePatch.Proofs.Patch.Confinement
import BundlePatch.Proofs.Patch.Complaint
import BundlePatch.Proofs.Detector.Legible
