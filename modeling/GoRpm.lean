import GoRpm.Package
import GoRpm.Header.Accepted
import GoRpm.Header.Json
import GoRpm.Files.Ingest
import GoRpm.Files.Dump
import GoRpm.Scpio.RoundTrip
import GoRpm.Tar2rpm.Main
import GoRpm.Rpmdump
